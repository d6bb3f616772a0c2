import Mathlib.Data.List.Forall2
import StorageAtlas.Fetch

/-!
# What a computation can be told

A computation that asks gives one of several values, depending on the answers (`Dialogue.Yields`);
with answers that never change it gives one (`Dialogue.answered`). A fetch asks for rounds of jobs.
It may be told anything that the jobs yield, and in any order (`Answerer.Completes`), however the
jobs are interleaved and whatever the reader does: words, wrong ones, errors, or nothing in time. A
reader that serves a fixed memory leaves nothing open but the order (`Answerer.Serves`).
-/

namespace StorageAtlas

namespace Dialogue

variable {Q : Type} {A : Q → Type} {α β σ : Type}

/-- Some answers lead to the value. -/
inductive Yields : Dialogue Q A α → α → Prop
  | done (a : α) : Yields (done a) a
  | ask {q : Q} {next : A q → Dialogue Q A α} (reply : A q) {a : α} (h : Yields (next reply) a) :
    Yields (ask q next) a
  | pause {ms : Nat} {next : Dialogue Q A α} {a : α} (h : Yields next a) : Yields (pause ms next) a

theorem yields_done {a b : α} : (done a : Dialogue Q A α).Yields b ↔ b = a := by
  constructor
  · intro h
    cases h
    rfl
  · rintro rfl
    exact .done b

theorem yields_bind {d : Dialogue Q A α} {f : α → Dialogue Q A β} {b : β} :
    (d.bind f).Yields b ↔ ∃ a, d.Yields a ∧ (f a).Yields b := by
  constructor
  · intro h
    induction d with
    | done a => exact ⟨a, .done a, h⟩
    | ask q next ih =>
      cases h with
      | ask reply h =>
        obtain ⟨a, ha, hb⟩ := ih reply h
        exact ⟨a, .ask reply ha, hb⟩
    | pause ms next ih =>
      cases h with
      | pause h =>
        obtain ⟨a, ha, hb⟩ := ih h
        exact ⟨a, .pause ha, hb⟩
  · rintro ⟨a, ha, hb⟩
    induction ha with
    | done a => exact hb
    | ask reply _ ih => exact .ask reply (ih hb)
    | pause _ ih => exact .pause (ih hb)

theorem yields_map {d : Dialogue Q A α} {f : α → β} {b : β} :
    (d.map f).Yields b ↔ ∃ a, d.Yields a ∧ b = f a := by
  simp only [map, yields_bind, yields_done]

/-- Whoever answers, what comes out is yielded. -/
theorem yields_run (w : Answerer Q A σ) (d : Dialogue Q A α) : ∀ s : σ, d.Yields (d.run w s).1 := by
  induction d with
  | done a => intro s; exact .done a
  | ask q next ih => intro s; exact .ask _ (ih _ _)
  | pause ms next ih => intro s; exact .pause (ih _)

/-- What a computation gives if each question has one answer. -/
def answered (reply : (q : Q) → A q) : Dialogue Q A α → α
  | done a => a
  | ask q next => (next (reply q)).answered reply
  | pause _ next => next.answered reply

variable {reply : (q : Q) → A q}

@[simp] theorem answered_done (a : α) : (done a : Dialogue Q A α).answered reply = a := rfl

@[simp] theorem answered_bind (d : Dialogue Q A α) (f : α → Dialogue Q A β) :
    (d.bind f).answered reply = (f (d.answered reply)).answered reply := by
  induction d with
  | done a => rfl
  | ask q next ih => exact ih _
  | pause ms next ih => exact ih

@[simp] theorem answered_map (d : Dialogue Q A α) (f : α → β) :
    (d.map f).answered reply = f (d.answered reply) := by
  simp only [map, answered_bind, answered_done]

theorem yields_answered (d : Dialogue Q A α) : d.Yields (d.answered reply) := by
  induction d with
  | done a => exact .done a
  | ask q next ih => exact .ask _ (ih _)
  | pause ms next ih => exact .pause ih

theorem inOrder_answered (ds : List (Dialogue Q A α)) :
    (inOrder ds).answered reply = ds.map (·.answered reply) := by
  induction ds with
  | nil => rfl
  | cons d ds ih => simp only [inOrder, answered_bind, answered_map, ih, List.map_cons]

/-- An answerer whose answers never change. -/
theorem run_eq_answered {w : Answerer Q A σ} (hw : ∀ s q, (w.answer s q).1 = reply q)
    (d : Dialogue Q A α) : ∀ s : σ, (d.run w s).1 = d.answered reply := by
  induction d with
  | done a => intro s; rfl
  | ask q next ih =>
    intro s
    show ((next (w.answer s q).1).run w (w.answer s q).2).1 = (next (reply q)).answered reply
    rw [hw, ih]
  | pause ms next ih => intro s; exact ih _

end Dialogue

/-! ## Rounds -/

/-- What may be told of the jobs of a round: a result of each, in any order. -/
def Round.MayTell (jobs : Round) (told : List (List Settled)) : Prop :=
  ∃ inTurn, List.Forall₂ Dialogue.Yields jobs inTurn ∧ told.Perm inTurn

/-- The answer to a read from a fixed memory. -/
def ReadRequest.replyFrom (memory : Address → Word → Word) (q : ReadRequest) : ReadReply :=
  some (.ok (q.slots.map (memory q.address)))

namespace Answerer

variable {σ : Type}

/-- Every job of a round is run to its end. -/
def Completes (w : Answerer Round (fun _ => List (List Settled)) σ) : Prop :=
  ∀ s jobs, Round.MayTell jobs (w.answer s jobs).1

/-- Every job of a round is run on the memory. -/
def Serves (w : Answerer Round (fun _ => List (List Settled)) σ)
    (memory : Address → Word → Word) : Prop :=
  ∀ s jobs, (w.answer s jobs).1.Perm
    (jobs.map (·.answered (ReadRequest.replyFrom memory)))

theorem Serves.completes {w : Answerer Round (fun _ => List (List Settled)) σ}
    {memory : Address → Word → Word} (h : w.Serves memory) : w.Completes := by
  intro s jobs
  refine ⟨_, ?_, h s jobs⟩
  refine List.forall₂_map_right_iff.2 (List.forall₂_same.2 fun job _ => ?_)
  exact job.yields_answered

/-- Runs the jobs of a round one after the other. -/
def inTurn (v : Answerer ReadRequest (fun _ => ReadReply) σ) :
    Answerer Round (fun _ => List (List Settled)) σ where
  answer s jobs := (Dialogue.inOrder jobs).run v s
  pause := v.pause

variable (v : Answerer ReadRequest (fun _ => ReadReply) σ)

theorem yields_inOrder {jobs : Round} {told : List (List Settled)}
    (h : (Dialogue.inOrder jobs).Yields told) : List.Forall₂ Dialogue.Yields jobs told := by
  induction jobs generalizing told with
  | nil =>
    obtain rfl := Dialogue.yields_done.1 h
    exact .nil
  | cons job jobs ih =>
    obtain ⟨first, hfirst, hmap⟩ := Dialogue.yields_bind.1 h
    obtain ⟨rest, hrest, rfl⟩ := Dialogue.yields_map.1 hmap
    exact .cons hfirst (ih hrest)

/-- **Whatever the reader does**, jobs that are run one after the other are run to their ends. -/
theorem inTurn_completes : v.inTurn.Completes := by
  intro s jobs
  exact ⟨_, yields_inOrder (Dialogue.yields_run v _ s), List.Perm.refl _⟩

theorem inTurn_serves {memory : Address → Word → Word}
    (hv : ∀ s q, (v.answer s q).1 = q.replyFrom memory) : v.inTurn.Serves memory := by
  intro s jobs
  have hrun : ((Dialogue.inOrder jobs).run v s).1 =
      (Dialogue.inOrder jobs).answered (ReadRequest.replyFrom memory) :=
    Dialogue.run_eq_answered hv _ s
  exact .of_eq (hrun.trans (Dialogue.inOrder_answered jobs))

/-- The program's own way to run a fetch is one of the ways to hold it. -/
theorem run_oneByOne {α : Type} (fetch : Rounds α) : ∀ s : σ,
    (Fetch.oneByOne fetch).run v s = fetch.run v.inTurn s := by
  induction fetch with
  | done a => intro s; rfl
  | ask jobs next ih =>
    intro s
    show (Dialogue.run v ((Dialogue.inOrder jobs).bind fun told => _) s) = _
    rw [Dialogue.run_bind]
    exact ih _ _
  | pause ms next ih => intro s; exact ih _

end Answerer

end StorageAtlas
