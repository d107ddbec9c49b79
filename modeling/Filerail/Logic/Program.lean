/-
Module: Filerail.Logic.Program
Layer: Logic (general library)
Purpose: Imperative programs over an arbitrary signature of operations, with possibly endless
  `while` loops, and a weakest-precondition calculus for them. A program is a tree of operation calls
  and loops; what an operation may answer and how it changes the world is a relation given from
  outside, so one program can be run against a faulty file system, an arbitrary peer or a scripted
  one. `Wp` asserts a guard in front of every operation and every round of a loop, a postcondition at
  every return, and (when asked for totality) that no run is endless or stuck. The guard is what crash
  and interleaving arguments need: it speaks about the intermediate states, not only the last one.
Imports: Mathlib.Logic.Relation, Mathlib.Tactic.Basic
Main exports: Prog, Prog.Step, Prog.Reach, Terminates, Wp, wp_bind, wp_perform_bind, wp_iterate,
  Prog.Calls, wp_calls, Prog.Returns, wp_returns, Prog.Leads, reach_leads, wp_leads, reach_sem_map,
  Player, Prog.play, reach_play
-/
import Mathlib.Logic.Relation
import Mathlib.Tactic.Basic

namespace ProgramLogic

/-- Programs that call operations `e : E`, each answered by a value of `R e`. A `loop` runs `body` on
    its loop variable until `body` answers `Sum.inr`. -/
inductive Prog (E : Type) (R : E → Type) : Type → Type 1 where
  | ret {α : Type} (value : α) : Prog E R α
  | call {α : Type} (event : E) (next : R event → Prog E R α) : Prog E R α
  | loop {σ β α : Type} (body : σ → Prog E R (σ ⊕ β)) (start : σ) (next : β → Prog E R α) :
      Prog E R α

/-- What an operation may answer, and the world it leaves behind. -/
abbrev Sem (E : Type) (R : E → Type) (S : Type) := S → (e : E) → R e → S → Prop

variable {E : Type} {R : E → Type} {S : Type} {α β σ : Type}

namespace Prog

/-- Sequential composition. -/
def bind : Prog E R α → (α → Prog E R β) → Prog E R β
  | .ret a, f => f a
  | .call e k, f => .call e (fun r => bind (k r) f)
  | .loop body x k, f => .loop body x (fun b => bind (k b) f)

instance : Monad (Prog E R) where
  pure := Prog.ret
  bind := Prog.bind

/-- Call one operation and return its answer. -/
def perform (e : E) : Prog E R (R e) :=
  .call e .ret

/-- Run a loop and return the value it is left with. -/
def iterate (body : σ → Prog E R (σ ⊕ β)) (x : σ) : Prog E R β :=
  .loop body x .ret

/-- What a loop does with the answer of one run of its body. -/
def resume (body : σ → Prog E R (σ ⊕ β)) (k : β → Prog E R α) : σ ⊕ β → Prog E R α
  | .inl x => .loop body x k
  | .inr b => k b

@[simp] theorem bind_eq (p : Prog E R α) (f : α → Prog E R β) : p >>= f = p.bind f := rfl

@[simp] theorem pure_eq (a : α) : (pure a : Prog E R α) = .ret a := rfl

@[simp] theorem ret_bind (a : α) (f : α → Prog E R β) : (Prog.ret a).bind f = f a := rfl

@[simp] theorem call_bind (e : E) (k : R e → Prog E R α) (f : α → Prog E R β) :
    (Prog.call e k).bind f = .call e (fun r => (k r).bind f) := rfl

@[simp] theorem loop_bind {γ : Type} (body : σ → Prog E R (σ ⊕ γ)) (x : σ) (k : γ → Prog E R α)
    (f : α → Prog E R β) :
    (Prog.loop body x k).bind f = .loop body x (fun b => (k b).bind f) := rfl

theorem bind_assoc {γ : Type} (p : Prog E R α) (f : α → Prog E R β) (g : β → Prog E R γ) :
    (p.bind f).bind g = p.bind (fun a => (f a).bind g) := by
  induction p with
  | ret a => rfl
  | call e k ih => simp only [call_bind, ih]
  | loop body x k _ ih => simp only [loop_bind, ih]

theorem bind_ret (p : Prog E R α) : p.bind .ret = p := by
  induction p with
  | ret a => rfl
  | call e k ih => simp only [call_bind, ih]
  | loop body x k _ ih => simp only [loop_bind, ih]

theorem resume_bind {γ : Type} (body : σ → Prog E R (σ ⊕ γ)) (k : γ → Prog E R α)
    (f : α → Prog E R β) (a : σ ⊕ γ) :
    (resume body k a).bind f = resume body (fun b => (k b).bind f) a := by
  cases a <;> rfl

/-- One transition: an operation is answered, or a loop starts its next round. -/
inductive Step (sem : Sem E R S) : Prog E R α × S → Prog E R α × S → Prop
  | call {e : E} {k : R e → Prog E R α} {s s' : S} {r : R e} (answer : sem s e r s') :
      Step sem (.call e k, s) (k r, s')
  | loop {σ β : Type} {body : σ → Prog E R (σ ⊕ β)} {x : σ} {k : β → Prog E R α} {s : S} :
      Step sem (.loop body x k, s) ((body x).bind (resume body k), s)

/-- The configurations a run can pass through. -/
abbrev Reach (sem : Sem E R S) : Prog E R α × S → Prog E R α × S → Prop :=
  Relation.ReflTransGen (Step sem)

theorem step_call_inv {sem : Sem E R S} {e : E} {k : R e → Prog E R α} {s : S}
    {c : Prog E R α × S} (step : Step sem (.call e k, s) c) :
    ∃ r s', sem s e r s' ∧ c = (k r, s') := by
  cases step with
  | call answer => exact ⟨_, _, answer, rfl⟩

theorem step_loop_inv {sem : Sem E R S} {body : σ → Prog E R (σ ⊕ β)} {x : σ}
    {k : β → Prog E R α} {s : S} {c : Prog E R α × S} (step : Step sem (.loop body x k, s) c) :
    c = ((body x).bind (resume body k), s) := by
  cases step with
  | loop => rfl

theorem step_ret_inv {sem : Sem E R S} {a : α} {s : S} {c : Prog E R α × S}
    (step : Step sem (.ret a, s) c) : False := by
  cases step

theorem reach_ret_inv {sem : Sem E R S} {a : α} {s : S} {c : Prog E R α × S}
    (run : Reach sem (.ret a, s) c) : c = (.ret a, s) := by
  cases run.cases_head with
  | inl same => exact same.symm
  | inr step =>
      obtain ⟨_, first, _⟩ := step
      exact (step_ret_inv first).elim

/-- A step of a composition is a step of its first part, unless that part has returned. -/
theorem step_bind_inv {sem : Sem E R S} {p : Prog E R α} {f : α → Prog E R β} {s : S}
    {c : Prog E R β × S} (step : Step sem (p.bind f, s) c) :
    (∃ a, p = .ret a) ∨ ∃ p' s', Step sem (p, s) (p', s') ∧ c = (p'.bind f, s') := by
  cases p with
  | ret a => exact Or.inl ⟨a, rfl⟩
  | call e k =>
      obtain ⟨r, s', answer, rfl⟩ := step_call_inv step
      exact Or.inr ⟨k r, s', .call answer, rfl⟩
  | loop body x k =>
      refine Or.inr ⟨(body x).bind (resume body k), s, .loop, ?_⟩
      rw [step_loop_inv step, bind_assoc]
      congr 2
      funext a
      rw [resume_bind]

theorem step_bind {sem : Sem E R S} {p p' : Prog E R α} {f : α → Prog E R β} {s s' : S}
    (step : Step sem (p, s) (p', s')) : Step sem (p.bind f, s) (p'.bind f, s') := by
  cases step with
  | call answer => exact .call answer
  | loop =>
      rename_i σ γ body x k
      have unrolled :
          ((body x).bind (resume body k)).bind f =
            (body x).bind (resume body (fun b => (k b).bind f)) := by
        rw [bind_assoc]
        congr 1
        funext a
        rw [resume_bind]
      rw [unrolled]
      exact .loop

theorem step_perform {sem : Sem E R S} {e : E} {f : R e → Prog E R α} {s s' : S} {r : R e}
    (answer : sem s e r s') : Step sem ((perform e).bind f, s) (f r, s') := by
  have step : Step sem (.call e f, s) (f r, s') := .call answer
  exact step

theorem reach_bind {sem : Sem E R S} {p p' : Prog E R α} {f : α → Prog E R β} {s s' : S}
    (run : Reach sem (p, s) (p', s')) : Reach sem (p.bind f, s) (p'.bind f, s') := by
  generalize hc : (p, s) = c at run
  generalize hc' : (p', s') = c' at run
  induction run generalizing p' s' with
  | refl =>
      cases hc.trans hc'.symm
      exact .refl
  | tail _ last ih =>
      rename_i mid _ _
      obtain ⟨q, t⟩ := mid
      cases hc'
      exact (ih rfl).tail (step_bind last)

end Prog

open Prog

/-! ### Runs that end

`Terminates` says that every run from a configuration is finite and never waits for an answer that
cannot come. -/

/-- Every run ends in a return, and every operation on the way has an answer. -/
inductive Terminates (sem : Sem E R S) : {α : Type} → Prog E R α → S → Prop
  | ret {α : Type} {a : α} {s : S} : Terminates sem (.ret a) s
  | call {α : Type} {e : E} {k : R e → Prog E R α} {s : S}
      (answered : ∃ r s', sem s e r s')
      (next : ∀ r s', sem s e r s' → Terminates sem (k r) s') :
      Terminates sem (.call e k) s
  | loop {σ β α : Type} {body : σ → Prog E R (σ ⊕ β)} {x : σ} {k : β → Prog E R α} {s : S}
      (next : Terminates sem ((body x).bind (resume body k)) s) :
      Terminates sem (.loop body x k) s

namespace Terminates

theorem step {sem : Sem E R S} {p p' : Prog E R α} {s s' : S} (ends : Terminates sem p s)
    (step : Step sem (p, s) (p', s')) : Terminates sem p' s' := by
  cases ends with
  | ret => exact (step_ret_inv step).elim
  | call _ next =>
      obtain ⟨r, _, answer, same⟩ := step_call_inv step
      cases same
      exact next r _ answer
  | loop next =>
      cases step_loop_inv step
      exact next

theorem progress {sem : Sem E R S} {p : Prog E R α} {s : S} (ends : Terminates sem p s) :
    (∃ a, p = .ret a) ∨ ∃ c, Step sem (p, s) c := by
  cases ends with
  | ret => exact Or.inl ⟨_, rfl⟩
  | call answered _ =>
      obtain ⟨r, s', answer⟩ := answered
      exact Or.inr ⟨_, .call answer⟩
  | loop _ => exact Or.inr ⟨_, .loop⟩

/-- A terminating configuration starts no infinite run. -/
theorem acc {sem : Sem E R S} {p : Prog E R α} {s : S} (ends : Terminates sem p s) :
    Acc (fun c c' => Step sem c' c) (p, s) := by
  induction ends with
  | ret => exact .intro _ (fun _ step => (step_ret_inv step).elim)
  | call _ _ ih =>
      refine .intro _ (fun c step => ?_)
      obtain ⟨r, s', answer, rfl⟩ := step_call_inv step
      exact ih r s' answer
  | loop _ ih =>
      refine .intro _ (fun c step => ?_)
      rw [step_loop_inv step]
      exact ih

theorem bind {sem : Sem E R S} {p : Prog E R α} {f : α → Prog E R β} {s : S}
    (first : Terminates sem p s)
    (rest : ∀ a s', Reach sem (p, s) (.ret a, s') → Terminates sem (f a) s') :
    Terminates sem (p.bind f) s := by
  induction first with
  | ret => exact rest _ _ .refl
  | call answered _ ih =>
      refine .call answered (fun r s' answer => ih r s' answer ?_)
      intro a last run
      exact rest a last (.head (.call answer) run)
  | @loop σ γ _ body x k _ _ ih =>
      refine .loop ?_
      have next := ih (f := f) (fun a t run => rest a t (.head .loop run))
      rw [bind_assoc] at next
      have unrolled : (fun a => (resume body k a).bind f) =
          resume body (fun b => (k b).bind f) := by
        funext a
        exact resume_bind body k f a
      rwa [unrolled] at next

/-- A run that ends has an end. -/
theorem returns {sem : Sem E R S} {p : Prog E R α} {s : S} (ends : Terminates sem p s) :
    ∃ a s', Reach sem (p, s) (.ret a, s') := by
  induction ends with
  | @ret _ a s => exact ⟨a, s, .refl⟩
  | call answered _ ih =>
      obtain ⟨r, s', answer⟩ := answered
      obtain ⟨a, last, run⟩ := ih r s' answer
      exact ⟨a, last, .head (.call answer) run⟩
  | loop _ ih =>
      obtain ⟨a, last, run⟩ := ih
      exact ⟨a, last, .head .loop run⟩

/-- From configurations that always lead on to one another no run is sure to end. -/
theorem not_forever {sem : Sem E R S} {I : Prog E R α × S → Prop}
    (leads_on : ∀ c, I c → ∃ c', Relation.TransGen (Step sem) c c' ∧ I c') {p : Prog E R α} {s : S}
    (start : I (p, s)) : ¬ Terminates sem p s := by
  intro ends
  have inside : ∀ c, Acc (Relation.TransGen (fun c c' => Step sem c' c)) c → ¬ I c := by
    intro c accessible
    induction accessible with
    | intro c _ ih =>
        intro here
        obtain ⟨c', run, there⟩ := leads_on c here
        exact ih c' (Relation.transGen_swap.mpr run) there
  exact inside _ ends.acc.transGen start

end Terminates

/-! ### The calculus -/

/-- What has to hold of a configuration a run passes through. The guard sees the operation that is
    about to be called, or `none` in front of a round of a loop. -/
def Sound (guard : S → Option E → Prop) (post : α → S → Prop) : Prog E R α → S → Prop
  | .ret a, s => post a s
  | .call e _, s => guard s (some e)
  | .loop _ _ _, s => guard s none

/-- Every state of every run satisfies `guard`, every return satisfies `post`, and, when `total` is
    asked for, every run ends. -/
structure Wp (sem : Sem E R S) (guard : S → Option E → Prop) (total : Prop) (p : Prog E R α) (s : S)
    (post : α → S → Prop) : Prop where
  sound : ∀ p' s', Reach sem (p, s) (p', s') → Sound guard post p' s'
  ends : total → Terminates sem p s

section Rules

variable {sem : Sem E R S} {guard : S → Option E → Prop} {total : Prop}

/-- The operation a program is about to perform, if it is. -/
def Prog.pending : Prog E R α → Option E
  | .call e _ => some e
  | _ => none

/-- The guard of a run, where the return counts as the head of a loop does. -/
theorem Wp.pending {p p' : Prog E R α} {s s' : S}
    (wp : Wp sem guard total p s (fun _ s' => guard s' none)) (run : Prog.Reach sem (p, s) (p', s')) :
    guard s' p'.pending := by
  have here := wp.sound p' s' run
  cases p' with
  | ret a => exact here
  | call e k => exact here
  | loop body x k => exact here

/-- What the guard and the postcondition say of every state is said of this one. -/
theorem Wp.holds {p : Prog E R α} {s : S} {post : α → S → Prop} {I : S → Prop}
    (wp : Wp sem guard total p s post) (guarded : ∀ s' e, guard s' e → I s')
    (returned : ∀ a s', post a s' → I s') : I s := by
  have here := wp.sound p s .refl
  cases p with
  | ret a => exact returned a s here
  | call e k => exact guarded s (some e) here
  | loop body x k => exact guarded s none here

theorem Wp.reach {p p' : Prog E R α} {s s' : S} {post : α → S → Prop}
    (wp : Wp sem guard total p s post) (run : Reach sem (p, s) (p', s')) :
    Wp sem guard total p' s' post where
  sound q t rest := wp.sound q t (run.trans rest)
  ends ask := by
    have ends := wp.ends ask
    generalize hc : (p, s) = c at run
    generalize hc' : (p', s') = c' at run
    induction run generalizing p' s' with
    | refl =>
        cases hc.trans hc'.symm
        exact ends
    | tail _ last ih =>
        rename_i mid _ _
        obtain ⟨q, t⟩ := mid
        cases hc'
        exact (ih rfl).step last

/-- What is known of a composition is known of its second part once the first has returned. -/
theorem Wp.after {p : Prog E R α} {f : α → Prog E R β} {s s' : S} {a : α} {post : β → S → Prop}
    (wp : Wp sem guard total (p.bind f) s post) (run : Reach sem (p, s) (.ret a, s')) :
    Wp sem guard total (f a) s' post :=
  wp.reach (reach_bind run)

@[simp] theorem wp_ret {a : α} {s : S} {post : α → S → Prop} :
    Wp sem guard total (.ret a) s post ↔ post a s := by
  constructor
  · intro wp
    exact wp.sound _ _ .refl
  · intro holds
    refine ⟨fun p' s' run => ?_, fun _ => .ret⟩
    cases reach_ret_inv run
    exact holds

theorem wp_call {e : E} {k : R e → Prog E R α} {s : S} {post : α → S → Prop} :
    Wp sem guard total (.call e k) s post ↔
      guard s (some e) ∧ (total → ∃ r s', sem s e r s') ∧
        ∀ r s', sem s e r s' → Wp sem guard total (k r) s' post := by
  constructor
  · intro wp
    refine ⟨wp.sound _ _ .refl, fun ask => ?_, fun r s' answer => wp.reach (.single (.call answer))⟩
    cases wp.ends ask with
    | call answered _ => exact answered
  · rintro ⟨holds, answered, next⟩
    refine ⟨fun p' s' run => ?_,
      fun ask => .call (answered ask) (fun r s' answer => (next r s' answer).ends ask)⟩
    cases run.cases_head with
    | inl same =>
        cases same
        exact holds
    | inr step =>
        obtain ⟨c, first, rest⟩ := step
        obtain ⟨r, t, answer, rfl⟩ := step_call_inv first
        exact (next r t answer).sound _ _ rest

/-- A loop does what its first round and the rounds after it do. -/
theorem wp_unroll {body : σ → Prog E R (σ ⊕ β)} {x : σ} {k : β → Prog E R α} {s : S}
    {post : α → S → Prop} (head : guard s none)
    (wp : Wp sem guard total ((body x).bind (resume body k)) s post) :
    Wp sem guard total (.loop body x k) s post := by
  refine ⟨fun p' s' run => ?_, fun ask => .loop (wp.ends ask)⟩
  cases run.cases_head with
  | inl same =>
      cases same
      exact head
  | inr step =>
      obtain ⟨c, first, rest⟩ := step
      cases step_loop_inv first
      exact wp.sound _ _ rest

theorem wp_mono {p : Prog E R α} {s : S} {post post' : α → S → Prop}
    (wp : Wp sem guard total p s post) (weaken : ∀ a s', post a s' → post' a s') :
    Wp sem guard total p s post' := by
  refine ⟨fun p' s' run => ?_, wp.ends⟩
  have here := wp.sound p' s' run
  cases p' with
  | ret a => exact weaken a s' here
  | call e k => exact here
  | loop body x k => exact here

/-- What returns has been reached. -/
theorem wp_reached {p : Prog E R α} {s : S} {post : α → S → Prop}
    (wp : Wp sem guard total p s post) :
    Wp sem guard total p s (fun a s' => Reach sem (p, s) (.ret a, s') ∧ post a s') := by
  refine ⟨fun p' s' run => ?_, wp.ends⟩
  have here := wp.sound p' s' run
  cases p' with
  | ret a => exact ⟨run, here⟩
  | call e k => exact here
  | loop body x k => exact here

theorem wp_guard_mono {guard' : S → Option E → Prop} {p : Prog E R α} {s : S} {post : α → S → Prop}
    (wp : Wp sem guard total p s post) (weaken : ∀ s' e, guard s' e → guard' s' e) :
    Wp sem guard' total p s post := by
  refine ⟨fun p' s' run => ?_, wp.ends⟩
  have here := wp.sound p' s' run
  cases p' with
  | ret a => exact here
  | call e k => exact weaken s' (some e) here
  | loop body x k => exact weaken s' none here

/-- Two specifications of one program, proved apart, hold together. -/
theorem wp_and {guard' : S → Option E → Prop} {total' : Prop} {p : Prog E R α} {s : S}
    {post post' : α → S → Prop} (left : Wp sem guard total p s post)
    (right : Wp sem guard' total' p s post') :
    Wp sem (fun s e => guard s e ∧ guard' s e) total p s (fun a s' => post a s' ∧ post' a s') := by
  refine ⟨fun p' s' run => ?_, left.ends⟩
  have here := left.sound p' s' run
  have there := right.sound p' s' run
  cases p' with
  | ret a => exact ⟨here, there⟩
  | call e k => exact ⟨here, there⟩
  | loop body x k => exact ⟨here, there⟩

/-- The rule of composition. The induction is on the run of the composition: as long as it is inside
    `p` its guard is the guard of `p`, and from the return of `p` on it is a run of `f`. -/
theorem wp_bind {p : Prog E R α} {f : α → Prog E R β} {s : S} {post : β → S → Prop}
    (wp : Wp sem guard total p s (fun a s' => Wp sem guard total (f a) s' post)) :
    Wp sem guard total (p.bind f) s post := by
  refine ⟨fun q t run => ?_, fun ask => (wp.ends ask).bind (fun a s' run =>
    Wp.ends (wp.sound _ _ run) ask)⟩
  generalize hc : (p.bind f, s) = c at run
  generalize hc' : (q, t) = c' at run
  induction run using Relation.ReflTransGen.head_induction_on generalizing p s with
  | refl =>
      have same := hc.trans hc'.symm
      cases p with
      | ret a =>
          have wpf := wp.sound _ _ .refl
          simp only [Sound, ret_bind, Prod.mk.injEq] at wpf same
          obtain ⟨rfl, rfl⟩ := same
          exact wpf.sound _ _ .refl
      | call e k =>
          have holds := wp.sound _ _ .refl
          simp only [Sound, call_bind, Prod.mk.injEq] at holds same
          obtain ⟨rfl, rfl⟩ := same
          exact holds
      | loop body x k =>
          have holds := wp.sound _ _ .refl
          simp only [Sound, loop_bind, Prod.mk.injEq] at holds same
          obtain ⟨rfl, rfl⟩ := same
          exact holds
  | head first rest ih =>
      cases hc
      cases step_bind_inv first with
      | inl returned =>
          obtain ⟨a, rfl⟩ := returned
          have wpf := wp.sound _ _ .refl
          cases hc'
          exact Wp.sound wpf _ _ (.head first rest)
      | inr inside =>
          obtain ⟨p', s', step, rfl⟩ := inside
          exact ih (wp.reach (.single step)) rfl

theorem wp_perform_bind {e : E} {f : R e → Prog E R α} {s : S} {post : α → S → Prop} :
    Wp sem guard total ((perform e).bind f) s post ↔
      guard s (some e) ∧ (total → ∃ r s', sem s e r s') ∧
        ∀ r s', sem s e r s' → Wp sem guard total (f r) s' post :=
  wp_call

theorem wp_perform {e : E} {s : S} {post : R e → S → Prop} :
    Wp sem guard total (perform e) s post ↔
      guard s (some e) ∧ (total → ∃ r s', sem s e r s') ∧ ∀ r s', sem s e r s' → post r s' := by
  simp only [perform, wp_call, wp_ret]

end Rules

/-! ### Loops

A loop is verified by an invariant over its variable and the world, and, for totality, a measure that
every further round decreases. -/

section Loop

variable {sem : Sem E R S} {guard : S → Option E → Prop} {total : Prop}

/-- What one round has to establish: the invariant again (with a smaller measure when totality is
    asked for), or the postcondition of the whole loop. -/
def LoopPost (total : Prop) (inv : σ → S → Prop) (measure : σ → S → Nat) (bound : Nat)
    (post : β → S → Prop) : σ ⊕ β → S → Prop
  | .inl x, s => inv x s ∧ (total → measure x s < bound)
  | .inr b, s => post b s

private theorem loop_sound {body : σ → Prog E R (σ ⊕ β)} {post : β → S → Prop}
    {inv : σ → S → Prop} {measure : σ → S → Nat} (heads : ∀ x s, inv x s → guard s none)
    (round : ∀ x s, inv x s →
      Wp sem guard total (body x) s (LoopPost total inv measure (measure x s) post))
    {c c' : Prog E R β × S} (run : Reach sem c c') :
    ((∃ x s, c = (.loop body x .ret, s) ∧ inv x s) ∨
      ∃ p s n, c = (p.bind (resume body .ret), s) ∧
        Wp sem guard total p s (LoopPost total inv measure n post)) →
      Sound guard post c'.1 c'.2 := by
  induction run using Relation.ReflTransGen.head_induction_on with
  | refl =>
      rintro (⟨x, s, rfl, holds⟩ | ⟨p, s, n, rfl, wp⟩)
      · exact heads x s holds
      · have here := wp.sound _ _ .refl
        cases p with
        | ret a =>
            cases a with
            | inl x => exact heads x s here.1
            | inr b => exact here
        | call e k => exact here
        | loop body x k => exact here
  | head first rest ih =>
      rintro (⟨x, s, rfl, holds⟩ | ⟨p, s, n, rfl, wp⟩)
      · cases step_loop_inv first
        exact ih (Or.inr ⟨body x, s, measure x s, rfl, round x s holds⟩)
      · cases step_bind_inv first with
        | inl returned =>
            obtain ⟨a, rfl⟩ := returned
            have here := wp.sound _ _ .refl
            cases a with
            | inl x =>
                cases step_loop_inv first
                exact ih (Or.inr ⟨body x, s, measure x s, rfl, round x s here.1⟩)
            | inr b => exact (step_ret_inv first).elim
        | inr inside =>
            obtain ⟨p', s', step, rfl⟩ := inside
            exact ih (Or.inr ⟨p', s', n, rfl, wp.reach (.single step)⟩)

private theorem loop_ends {body : σ → Prog E R (σ ⊕ β)} {post : β → S → Prop}
    {inv : σ → S → Prop} {measure : σ → S → Nat} (ask : total)
    (round : ∀ x s, inv x s →
      Wp sem guard total (body x) s (LoopPost total inv measure (measure x s) post)) :
    ∀ n x s, measure x s = n → inv x s → Terminates sem (.loop body x .ret) s := by
  intro n
  induction n using Nat.strongRecOn with
  | ind n ih =>
      intro x s size holds
      refine .loop (((round x s holds).ends ask).bind (fun a s' run => ?_))
      have here := (round x s holds).sound _ _ run
      cases a with
      | inl x' => exact ih _ (size ▸ here.2 ask) x' s' rfl here.1
      | inr b => exact .ret

/-- The loop rule. -/
theorem wp_iterate {body : σ → Prog E R (σ ⊕ β)} {x : σ} {s : S} {post : β → S → Prop}
    (inv : σ → S → Prop) (measure : σ → S → Nat) (start : inv x s)
    (heads : ∀ x s, inv x s → guard s none)
    (round : ∀ x s, inv x s →
      Wp sem guard total (body x) s (LoopPost total inv measure (measure x s) post)) :
    Wp sem guard total (iterate body x) s post where
  sound _ _ run := loop_sound heads round run (Or.inl ⟨x, s, rfl, start⟩)
  ends ask := loop_ends ask round _ x s rfl start

theorem iterate_bind (body : σ → Prog E R (σ ⊕ β)) (x : σ) (f : β → Prog E R α) :
    (iterate body x).bind f = .loop body x f := rfl

end Loop

/-! ### Programs known by their operations

Often all that matters of a program is which operations it can call. -/

section Operations

/-- Every operation the program can call satisfies `P`. -/
def Prog.Calls (P : E → Prop) : {α : Type} → Prog E R α → Prop
  | _, .ret _ => True
  | _, .call e k => P e ∧ ∀ r, Calls P (k r)
  | _, .loop body _ k => (∀ y, Calls P (body y)) ∧ ∀ b, Calls P (k b)

variable {P : E → Prop}

theorem Prog.Calls.bind {p : Prog E R α} {f : α → Prog E R β} (first : p.Calls P)
    (rest : ∀ a, (f a).Calls P) : (p.bind f).Calls P := by
  induction p with
  | ret a => exact rest a
  | call e k ih => exact ⟨first.1, fun r => ih r (first.2 r) rest⟩
  | loop body x k _ ih => exact ⟨first.1, fun b => ih b (first.2 b) rest⟩

theorem Prog.Calls.iterate {body : σ → Prog E R (σ ⊕ β)} (all : ∀ y, (body y).Calls P) (x : σ) :
    (Prog.iterate body x : Prog E R β).Calls P :=
  ⟨all, fun _ => trivial⟩

theorem Prog.Calls.perform {e : E} (here : P e) : (Prog.perform e : Prog E R (R e)).Calls P :=
  ⟨here, fun _ => trivial⟩

theorem Prog.Calls.mono {Q : E → Prop} {p : Prog E R α} (calls : p.Calls P)
    (weaken : ∀ e, P e → Q e) : p.Calls Q := by
  induction p with
  | ret a => trivial
  | call e k ih => exact ⟨weaken e calls.1, fun r => ih r (calls.2 r)⟩
  | loop body x k ihBody ihRest =>
      exact ⟨fun y => ihBody y (calls.1 y), fun b => ihRest b (calls.2 b)⟩

theorem Prog.Calls.and {Q : E → Prop} {p : Prog E R α} (calls : p.Calls P) (others : p.Calls Q) :
    p.Calls (fun e => P e ∧ Q e) := by
  induction p with
  | ret a => trivial
  | call e k ih => exact ⟨⟨calls.1, others.1⟩, fun r => ih r (calls.2 r) (others.2 r)⟩
  | loop body x k ihBody ihRest =>
      exact ⟨fun y => ihBody y (calls.1 y) (others.1 y),
        fun b => ihRest b (calls.2 b) (others.2 b)⟩

private theorem calls_step {sem : Sem E R S} {p : Prog E R α} {s : S} {c : Prog E R α × S}
    (calls : p.Calls P) (step : Prog.Step sem (p, s) c) :
    c.1.Calls P ∧ (c.2 = s ∨ ∃ e r, P e ∧ sem s e r c.2) := by
  cases p with
  | ret a => exact (step_ret_inv step).elim
  | call e k =>
      obtain ⟨r, s', answer, rfl⟩ := step_call_inv step
      exact ⟨calls.2 r, Or.inr ⟨e, r, calls.1, answer⟩⟩
  | loop body x k =>
      rw [step_loop_inv step]
      refine ⟨(calls.1 x).bind (fun a => ?_), Or.inl rfl⟩
      cases a with
      | inl y => exact ⟨calls.1, calls.2⟩
      | inr b => exact calls.2 b

/-- A property of the state that the operations of a program keep holds all along its runs. -/
theorem wp_calls {sem : Sem E R S} {guard : S → Option E → Prop} {p : Prog E R α} {s : S}
    (calls : p.Calls P) (inv : S → Prop) (start : inv s)
    (keeps : ∀ s e r s', P e → inv s → sem s e r s' → inv s')
    (allowed : ∀ s e, P e → inv s → guard s (some e)) (heads : ∀ s, inv s → guard s none) :
    Wp sem guard False p s (fun _ s' => inv s') := by
  refine ⟨fun p' s' run => ?_, False.elim⟩
  have along : p'.Calls P ∧ inv s' := by
    generalize hc' : (p', s') = c' at run
    induction run generalizing p' s' with
    | refl =>
        cases hc'
        exact ⟨calls, start⟩
    | tail _ last ih =>
        rename_i mid _ _
        obtain ⟨here, holds⟩ := ih mid.1 mid.2 rfl
        subst hc'
        obtain ⟨calls', moved⟩ := calls_step here last
        refine ⟨calls', ?_⟩
        rcases moved with same | ⟨e, r, may, answer⟩
        · rw [show s' = mid.2 from same]
          exact holds
        · exact keeps _ e r _ may holds answer
  cases p' with
  | ret a => exact along.2
  | call e k => exact allowed s' e along.1.1 along.2
  | loop body x k => exact heads s' along.2

/-- Every value the program can return satisfies `P`. -/
def Prog.Returns (P : α → Prop) : Prog E R α → Prop
  | .ret a => P a
  | .call _ k => ∀ r, Returns P (k r)
  | .loop _ _ k => ∀ b, Returns P (k b)

theorem Prog.Returns.bind {P : α → Prop} {Q : β → Prop} {p : Prog E R α} {f : α → Prog E R β}
    (first : p.Returns P) (rest : ∀ a, P a → (f a).Returns Q) : (p.bind f).Returns Q := by
  induction p with
  | ret a => exact rest a first
  | call e k ih => exact fun r => ih r (first r) rest
  | loop body x k _ ih => exact fun b => ih b (first b) rest

/-- Nothing need be known of what comes first. -/
theorem Prog.Returns.last {Q : β → Prop} {p : Prog E R α} {f : α → Prog E R β}
    (rest : ∀ a, (f a).Returns Q) : (p.bind f).Returns Q := by
  induction p with
  | ret a => exact rest a
  | call e k ih => exact fun r => ih r rest
  | loop body x k _ ih => exact fun b => ih b rest

private theorem returns_step {P : α → Prop} {sem : Sem E R S} {p : Prog E R α} {s : S}
    {c : Prog E R α × S} (returns : p.Returns P) (step : Prog.Step sem (p, s) c) :
    c.1.Returns P := by
  cases p with
  | ret a => exact (step_ret_inv step).elim
  | call e k =>
      obtain ⟨r, s', _, rfl⟩ := step_call_inv step
      exact returns r
  | loop body x k =>
      rw [step_loop_inv step]
      refine Prog.Returns.last (fun a => ?_)
      cases a with
      | inl y => exact returns
      | inr b => exact returns b

/-- A specification may use what is known of the values a program can return. -/
theorem wp_returns {sem : Sem E R S} {guard : S → Option E → Prop} {total : Prop} {P : α → Prop}
    {p : Prog E R α} {s : S} {post : α → S → Prop} (returns : p.Returns P)
    (wp : Wp sem guard total p s post) :
    Wp sem guard total p s (fun a s' => P a ∧ post a s') := by
  refine ⟨fun p' s' run => ?_, wp.ends⟩
  have along : p'.Returns P := by
    generalize hc' : (p', s') = c' at run
    induction run generalizing p' s' with
    | refl =>
        cases hc'
        exact returns
    | tail _ last ih =>
        rename_i mid _ _
        subst hc'
        exact returns_step (ih mid.1 mid.2 rfl) last
  have here := wp.sound p' s' run
  cases p' with
  | ret a => exact ⟨along, here⟩
  | call e k => exact here
  | loop body x k => exact here

/-- A property of the state that every operation keeps holds all along the runs of any program. -/
theorem wp_invariant {sem : Sem E R S} {guard : S → Option E → Prop} {p : Prog E R α} {s : S}
    {post : α → S → Prop} (inv : S → Prop) (start : inv s)
    (keeps : ∀ s e r s', inv s → sem s e r s' → inv s') (allowed : ∀ s e, inv s → guard s e)
    (done : ∀ a s, inv s → post a s) : Wp sem guard False p s post := by
  refine ⟨fun p' s' run => ?_, False.elim⟩
  have along : inv s' := by
    generalize hc' : (p', s') = c' at run
    induction run generalizing p' s' with
    | refl =>
        cases hc'
        exact start
    | @tail mid _ _ last ih =>
        have holds := ih mid.1 mid.2 rfl
        subst hc'
        cases last with
        | call answer => exact keeps _ _ _ _ holds answer
        | loop => exact holds
  cases p' with
  | ret a => exact done a s' along
  | call e k => exact allowed s' (some e) along
  | loop body x k => exact allowed s' none along

end Operations

/-! ### Programs with a prologue

The first part of a program, up to a point at which it has made up its mind, is a tree without loops.
It is described by what it may perform and by the points it leads to; a point is all that has been
performed, the last first, and what is still to be done. -/

section Prologue

/-- The program performs operations that satisfy `P` until it returns or comes to a point of `Q`. -/
def Prog.Leads (P : E → Prop) : {α : Type} → (List ((e : E) × R e) → Prog E R α → Prop) →
    List ((e : E) × R e) → Prog E R α → Prop
  | _, _, _, .ret _ => True
  | _, Q, log, .call e k => Q log (.call e k) ∨ P e ∧ ∀ r, Leads P Q (⟨e, r⟩ :: log) (k r)
  | _, Q, log, .loop body x k => Q log (.loop body x k)

variable {P : E → Prop} {Q : List ((e : E) × R e) → Prog E R α → Prop}
  {log : List ((e : E) × R e)}

theorem Prog.Leads.here {p : Prog E R α} (point : Q log p) : p.Leads P Q log := by
  cases p with
  | ret a => trivial
  | call e k => exact Or.inl point
  | loop body x k => exact point

theorem Prog.Leads.perform {e : E} {f : R e → Prog E R α} (may : P e)
    (next : ∀ r, (f r).Leads P Q (⟨e, r⟩ :: log)) : ((Prog.perform e).bind f).Leads P Q log :=
  Or.inr ⟨may, next⟩

theorem Prog.Leads.mono {Q' : List ((e : E) × R e) → Prog E R α → Prop} {p : Prog E R α}
    (leads : p.Leads P Q log) (weaken : ∀ log p, Q log p → Q' log p) : p.Leads P Q' log := by
  induction p generalizing log with
  | ret a => trivial
  | call e k ih => exact leads.imp (weaken _ _) (fun on => ⟨on.1, fun r => ih r (on.2 r) weaken⟩)
  | loop body x k _ _ => exact weaken _ _ leads

private theorem leads_step {sem : Sem E R S} {logs : S → List ((e : E) × R e)} {inv : S → Prop}
    (records : ∀ s e r s', sem s e r s' → logs s' = ⟨e, r⟩ :: logs s)
    (keeps : ∀ s e r s', P e → inv s → sem s e r s' → inv s') {p p' : Prog E R α} {s s' : S}
    (leads : p.Leads P Q (logs s)) (holds : inv s) (step : Prog.Step sem (p, s) (p', s')) :
    Q (logs s) p ∨ p'.Leads P Q (logs s') ∧ inv s' := by
  cases p with
  | ret a => exact (step_ret_inv step).elim
  | call e k =>
      rcases leads with point | ⟨may, next⟩
      · exact Or.inl point
      · obtain ⟨r, t, answer, same⟩ := step_call_inv step
        cases same
        refine Or.inr ⟨?_, keeps _ _ _ _ may holds answer⟩
        rw [records _ _ _ _ answer]
        exact next r
  | loop body x k => exact Or.inl leads

/-- A run has not left the prologue, or it has passed one of the points the prologue leads to. -/
theorem reach_leads {sem : Sem E R S} {logs : S → List ((e : E) × R e)} {inv : S → Prop}
    (records : ∀ s e r s', sem s e r s' → logs s' = ⟨e, r⟩ :: logs s)
    (keeps : ∀ s e r s', P e → inv s → sem s e r s' → inv s') {p p' : Prog E R α} {s s' : S}
    (leads : p.Leads P Q (logs s)) (start : inv s) (run : Reach sem (p, s) (p', s')) :
    (p'.Leads P Q (logs s') ∧ inv s') ∨
      ∃ q t, Q (logs t) q ∧ inv t ∧ Reach sem (p, s) (q, t) ∧ Reach sem (q, t) (p', s') := by
  generalize hc' : (p', s') = c' at run
  induction run generalizing p' s' with
  | refl =>
      cases hc'
      exact Or.inl ⟨leads, start⟩
  | @tail mid _ before last ih =>
      subst hc'
      rcases ih rfl with ⟨inside, holds⟩ | ⟨q, t, point, holds, first, rest⟩
      · rcases leads_step records keeps inside holds last with point | still
        · exact Or.inr ⟨mid.1, mid.2, point, holds, before, .single last⟩
        · exact Or.inl still
      · exact Or.inr ⟨q, t, point, holds, first, rest.tail last⟩

/-- The prologue is allowed, and what it leads to is verified from there. -/
theorem wp_leads {sem : Sem E R S} {logs : S → List ((e : E) × R e)} {guard : S → Option E → Prop}
    (records : ∀ s e r s', sem s e r s' → logs s' = ⟨e, r⟩ :: logs s) {p : Prog E R α} {s : S}
    (leads : p.Leads P Q (logs s)) (allowed : ∀ s e, P e → guard s (some e))
    (points : ∀ s q, Q (logs s) q → Wp sem guard False q s (fun _ _ => True)) :
    Wp sem guard False p s (fun _ _ => True) := by
  refine ⟨fun p' s' run => ?_, False.elim⟩
  have anywhere : ∀ (s : S) e r s', P e → True → sem s e r s' → True := fun _ _ _ _ _ _ _ => trivial
  rcases reach_leads records anywhere leads trivial run with ⟨inside, _⟩ | ⟨q, t, point, _, _, rest⟩
  · cases p' with
    | ret a => trivial
    | call e k =>
        rcases inside with point | ⟨may, _⟩
        · exact (points s' _ point).sound _ _ .refl
        · exact allowed s' e may
    | loop body x k => exact (points s' _ inside).sound _ _ .refl
  · exact (points t q point).sound _ _ rest

end Prologue

/-! ### Changing the semantics -/

/-- A step is also a step of any semantics that answers at least as freely, with the worlds related by
    a function. -/
theorem step_sem_map {T : Type} {sem : Sem E R S} {sem' : Sem E R T} (view : S → T)
    (simulates : ∀ s e r s', sem s e r s' → sem' (view s) e r (view s')) {p p' : Prog E R α}
    {s s' : S} (step : Step sem (p, s) (p', s')) : Step sem' (p, view s) (p', view s') := by
  cases step with
  | call answer => exact .call (simulates _ _ _ _ answer)
  | loop => exact .loop

/-- The same of a run. -/
theorem reach_sem_map {T : Type} {sem : Sem E R S} {sem' : Sem E R T} (view : S → T)
    (simulates : ∀ s e r s', sem s e r s' → sem' (view s) e r (view s')) {p p' : Prog E R α}
    {s s' : S} (run : Reach sem (p, s) (p', s')) : Reach sem' (p, view s) (p', view s') := by
  generalize hc : (p, s) = c at run
  generalize hc' : (p', s') = c' at run
  induction run generalizing p' s' with
  | refl =>
      cases hc.trans hc'.symm
      exact .refl
  | tail _ last ih =>
      rename_i mid _ _
      obtain ⟨q, t⟩ := mid
      cases hc'
      exact (ih rfl).tail (step_sem_map view simulates last)

/-! ### Scripted runs

A player picks one answer among those a semantics allows. With it a run can be computed from a script
of choices; a choice that does not apply is passed over. -/

/-- A way to pick answers by choices `C`. -/
structure Player (sem : Sem E R S) (C : Type) where
  answer : C → S → (e : E) → Option (R e × S)
  sound : ∀ {c s e r s'}, answer c s e = some (r, s') → sem s e r s'

section Scripts

variable {sem : Sem E R S} {C : Type}

/-- One step, with a chosen answer. -/
def Prog.move (player : Player sem C) (choice : C) : Prog E R α × S → Option (Prog E R α × S)
  | (.ret _, _) => none
  | (.call e k, s) => (player.answer choice s e).map (fun out => (k out.1, out.2))
  | (.loop body x k, s) => some ((body x).bind (resume body k), s)

/-- The run a script describes. -/
def Prog.play (player : Player sem C) (script : List C) (c : Prog E R α × S) : Prog E R α × S :=
  script.foldl (fun c choice => (Prog.move player choice c).getD c) c

theorem step_move {player : Player sem C} {choice : C} {c c' : Prog E R α × S}
    (moved : Prog.move player choice c = some c') : Prog.Step sem c c' := by
  obtain ⟨p, s⟩ := c
  cases p with
  | ret a => cases moved
  | call e k =>
      obtain ⟨out, answer, rfl⟩ := Option.map_eq_some_iff.mp moved
      exact .call (player.sound answer)
  | loop body x k =>
      cases moved
      exact .loop

theorem reach_play (player : Player sem C) (script : List C) (c : Prog E R α × S) :
    Reach sem c (Prog.play player script c) := by
  induction script generalizing c with
  | nil => exact .refl
  | cons choice rest ih =>
      rw [Prog.play, List.foldl_cons]
      cases moved : Prog.move player choice c with
      | none => exact ih c
      | some c' => exact .head (step_move moved) (ih c')

/-- What a program returns, when it has. -/
def Prog.result : Prog E R α → Option α
  | .ret a => some a
  | _ => none

theorem Prog.eq_ret {p : Prog E R α} {a : α} (result : p.result = some a) : p = .ret a := by
  cases p with
  | ret b => exact congrArg Prog.ret (Option.some.inj result)
  | call e k => cases result
  | loop body x k => cases result

/-- The state a run has come to, by its parts. -/
theorem Prog.reach_parts {c c' : Prog E R α × S} (run : Reach sem c c') :
    Reach sem c (c'.1, c'.2) :=
  run

/-- A run that has come to a return. -/
theorem Prog.reach_ret {c c' : Prog E R α × S} (run : Reach sem c c') {a : α}
    (result : c'.1.result = some a) : Reach sem c (.ret a, c'.2) := by
  obtain ⟨p, s⟩ := c'
  obtain rfl : p = .ret a := Prog.eq_ret result
  exact run

end Scripts

end ProgramLogic
