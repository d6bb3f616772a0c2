import Mathlib.Logic.Relation
import StorageAtlas.Proofs.Answers

/-!
# Jobs side by side

A pool takes the jobs of a round in turn and has at most so many of them under way. Whichever job
goes on next, and whichever ends first, the outcomes that were told, those that the jobs under way
are going to have and those of the jobs that wait stay the same up to their order, as long as each
question has one answer (`JobPool.Step.ends_perm`). So a pool that is done has told the outcome of
every job, and one that was dropped has told some of them.
-/

namespace StorageAtlas

/-- Jobs that wait, jobs under way, and the outcomes of those that ended, in the order of their
ends. -/
structure JobPool where
  waiting : Round
  working : Round
  told : List (List Settled)

namespace JobPool

def ofRound (jobs : Round) : JobPool := ⟨jobs, [], []⟩

def IsDone (c : JobPool) : Prop := c.waiting = [] ∧ c.working = []

section Steps

variable (reply : (q : ReadRequest) → ReadReply) (fanOut : Nat)

/-- What may happen next: a job is taken if there is room for it, a read is answered, a wait is
over, or a job ends. -/
inductive Step : JobPool → JobPool → Prop
  | take {job : Reading (List Settled)} {waiting working : Round} {told : List (List Settled)}
      (room : working.length < fanOut) :
      Step ⟨job :: waiting, working, told⟩ ⟨waiting, working ++ [job], told⟩
  | answer {waiting : Round} {told : List (List Settled)} (before behind : Round)
      (q : ReadRequest) (next : ReadReply → Reading (List Settled)) :
      Step ⟨waiting, before ++ .ask q next :: behind, told⟩
        ⟨waiting, before ++ next (reply q) :: behind, told⟩
  | wake {waiting : Round} {told : List (List Settled)} (before behind : Round) (ms : Nat)
      (next : Reading (List Settled)) :
      Step ⟨waiting, before ++ .pause ms next :: behind, told⟩
        ⟨waiting, before ++ next :: behind, told⟩
  | finish {waiting : Round} {told : List (List Settled)} (before behind : Round)
      (outcome : List Settled) :
      Step ⟨waiting, before ++ .done outcome :: behind, told⟩
        ⟨waiting, before ++ behind, told ++ [outcome]⟩

def Reaches : JobPool → JobPool → Prop := Relation.ReflTransGen (Step reply fanOut)

/-- What is told once all jobs have ended, up to the order. -/
def ends (c : JobPool) : List (List Settled) :=
  c.told ++ (c.working ++ c.waiting).map (·.answered reply)

end Steps

variable {reply : (q : ReadRequest) → ReadReply} {fanOut : Nat} {c c' : JobPool}

theorem Step.ends_perm (h : Step reply fanOut c c') : (c'.ends reply).Perm (c.ends reply) := by
  cases h with
  | take room => simp [ends]
  | answer before behind q next => exact .of_eq (by simp [ends, Dialogue.answered])
  | wake before behind ms next => exact .of_eq (by simp [ends, Dialogue.answered])
  | @finish waiting told before behind outcome =>
    simp only [ends, List.map_append, List.map_cons, List.append_assoc, List.cons_append,
      List.nil_append, Dialogue.answered_done]
    -- the outcome moves in front of those of the jobs that stand before
    exact List.perm_middle.symm.append_left told

theorem Reaches.ends_perm (h : Reaches reply fanOut c c') :
    (c'.ends reply).Perm (c.ends reply) := by
  induction h with
  | refl => exact .refl _
  | tail _ hstep ih => exact hstep.ends_perm.trans ih

/-- **What a dropped pool was told** of, and what it would have been told of yet. -/
theorem Reaches.exists_told_append {jobs : Round} (h : Reaches reply fanOut (ofRound jobs) c) :
    ∃ rest, (c.told ++ rest).Perm (jobs.map (·.answered reply)) :=
  ⟨_, h.ends_perm⟩

/-- **A pool that is done** has told the outcome of every job. -/
theorem Reaches.told_perm {jobs : Round} (h : Reaches reply fanOut (ofRound jobs) c)
    (hdone : c.IsDone) : c.told.Perm (jobs.map (·.answered reply)) := by
  have hends := h.ends_perm
  rwa [ends, hdone.1, hdone.2, List.append_nil, List.map_nil, List.append_nil] at hends

/-! ## One after the other -/

theorem reaches_alone (job : Reading (List Settled)) (waiting : Round)
    (told : List (List Settled)) : Reaches reply fanOut ⟨waiting, [job], told⟩
      ⟨waiting, [], told ++ [job.answered reply]⟩ := by
  induction job with
  | done outcome => exact .single (Step.finish [] [] outcome)
  | ask q next ih => exact .head (Step.answer [] [] q next) (ih _)
  | pause ms next ih => exact .head (Step.wake [] [] ms next) ih

/-- Jobs may always be run one after the other. -/
theorem reaches_inOrder (hroom : 0 < fanOut) (jobs : Round) : ∀ told : List (List Settled),
    Reaches reply fanOut ⟨jobs, [], told⟩ ⟨[], [], told ++ jobs.map (·.answered reply)⟩ := by
  induction jobs with
  | nil =>
    intro told
    rw [List.map_nil, List.append_nil]
    exact .refl
  | cons job jobs ih =>
    intro told
    have hrest := ih (told ++ [job.answered reply])
    rw [List.append_assoc] at hrest
    exact .head (.take hroom) ((reaches_alone job jobs told).trans hrest)

end JobPool

namespace Answerer

variable {σ : Type}

/-- Every round is run by a pool until it is done. -/
def Pools (w : Answerer Round (fun _ => List (List Settled)) σ)
    (reply : (q : ReadRequest) → ReadReply) (fanOut : Nat) : Prop :=
  ∀ s jobs, ∃ c, JobPool.Reaches reply fanOut (.ofRound jobs) c ∧ c.IsDone ∧
    (w.answer s jobs).1 = c.told

/-- Every round is run by a pool that may be dropped before it is done. -/
def BreaksOff (w : Answerer Round (fun _ => List (List Settled)) σ)
    (reply : (q : ReadRequest) → ReadReply) (fanOut : Nat) : Prop :=
  ∀ s jobs, ∃ c, JobPool.Reaches reply fanOut (.ofRound jobs) c ∧ (w.answer s jobs).1 = c.told

variable {reply : (q : ReadRequest) → ReadReply} {fanOut : Nat}

theorem inTurn_pools {v : Answerer ReadRequest (fun _ => ReadReply) σ}
    (hv : ∀ s q, (v.answer s q).1 = reply q) (hroom : 0 < fanOut) :
    v.inTurn.Pools reply fanOut := by
  intro s jobs
  refine ⟨_, JobPool.reaches_inOrder hroom jobs [], ⟨rfl, rfl⟩, ?_⟩
  show ((Dialogue.inOrder jobs).run v s).1 = jobs.map (·.answered reply)
  rw [Dialogue.run_eq_answered hv, Dialogue.inOrder_answered]

end Answerer

end StorageAtlas
