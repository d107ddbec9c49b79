/-
Module: Filerail.Logic.Session
Layer: Logic (general library)
Purpose: Two programs that talk over a pair of reliable first-in first-out channels. `Pair` runs them
  against each other, with the frames in flight as part of the state. `Pair.track` is the bridge to
  the verification of one program at a time: as long as both programs obey a protocol, every run of
  the pair is, seen from each side, a run against the protocol, and at most one channel is non-empty.
  That no two sides wait for each other, and that sessions end, then follow from facts about the two
  programs alone.
Imports: Filerail.Logic.Endpoint
Main exports: Pair, Pair.Step, Pair.Reach, Pair.Tracked, Pair.track, Pair.reach_left_solo,
  Pair.reach_right_solo, Tracked.same_kind, Tracked.not_both_wait, Pair.acc_of_terminates,
  Pair.stuck_returned, Pair.settles
-/
import Filerail.Logic.Endpoint

namespace ProgramLogic

open Prog

section Paths

variable {K P : Type} {Val : K → Type}

/-- The frames `ms`, all sent by `side`, lead from one position to another. -/
def Protocol.Path (proto : Protocol P Val) (side : Side) : P → List (Frame Val) → P → Prop
  | p, [], q => p = q
  | p, m :: ms, q =>
      proto.turn p = some side ∧ proto.allowed p m ∧ proto.Path side (proto.next p m) ms q

theorem Protocol.path_append {proto : Protocol P Val} {side : Side} {p q : P}
    {ms : List (Frame Val)} {m : Frame Val} (path : proto.Path side p ms q)
    (turn : proto.turn q = some side) (allowed : proto.allowed q m) :
    proto.Path side p (ms ++ [m]) (proto.next q m) := by
  induction ms generalizing p with
  | nil =>
      cases path
      exact ⟨turn, allowed, rfl⟩
  | cons m' ms ih => exact ⟨path.1, path.2.1, ih path.2.2⟩

/-- A path of frames of the other side cannot start where it is this side's turn. -/
theorem Protocol.path_eq_nil {proto : Protocol P Val} {side : Side} {p q : P}
    {ms : List (Frame Val)} (path : proto.Path side p ms q) (turn : proto.turn p ≠ some side) :
    ms = [] ∧ p = q := by
  cases ms with
  | nil => exact ⟨rfl, path⟩
  | cons m ms => exact absurd path.1 turn

/-- How the positions of the two sides are related by the frames in flight: one channel is empty, and
    the frames on the other lead the side that lags behind to the position of the side that sent
    them. -/
def Compat (proto : Protocol P Val) (side : Side) (self : P) (toSelf : List (Frame Val)) (peer : P)
    (toPeer : List (Frame Val)) : Prop :=
  (toSelf = [] ∧ proto.Path side peer toPeer self) ∨
    (toPeer = [] ∧ proto.Path side.other self toSelf peer)

theorem Compat.mirror {proto : Protocol P Val} {side : Side} {p q : P}
    {ms ns : List (Frame Val)} (compat : Compat proto side p ms q ns) :
    Compat proto side.other q ns p ms := by
  cases compat with
  | inl behind => exact Or.inr ⟨behind.1, by rw [Side.other_other]; exact behind.2⟩
  | inr ahead => exact Or.inl ahead

theorem Compat.eq_of_empty {proto : Protocol P Val} {side : Side} {p q : P}
    (compat : Compat proto side p [] q []) : p = q := by
  cases compat with
  | inl behind => exact (behind.2 : q = p).symm
  | inr ahead => exact ahead.2

/-- When the conversation is over on both sides, it has ended the same way. -/
theorem Compat.eq_of_over {proto : Protocol P Val} {side : Side} {p q : P} {ms ns : List (Frame Val)}
    (compat : Compat proto side p ms q ns) (overP : proto.turn p = none)
    (overQ : proto.turn q = none) : p = q := by
  cases compat with
  | inl behind => exact (Protocol.path_eq_nil behind.2 (by rw [overQ]; simp)).2.symm
  | inr ahead => exact (Protocol.path_eq_nil ahead.2 (by rw [overP]; simp)).2

end Paths

/-! ### The product of two programs -/

/-- Two communicating programs, their worlds, and the frames in flight. -/
structure Pair {K : Type} (E : Type) (R : E → Type) (Val : K → Type) (α β W V : Type) where
  left : Prog (Act E Val) (Act.Answer R) α
  leftTape : Tape (Event R Val) W
  leftBroken : Bool
  right : Prog (Act E Val) (Act.Answer R) β
  rightTape : Tape (Event R Val) V
  rightBroken : Bool
  toLeft : List (Frame Val)
  toRight : List (Frame Val)

namespace Pair

variable {K E P W V α β : Type} {Val : K → Type} {R : E → Type}

/-- The same pair seen from the other end. -/
def swap (c : Pair E R Val α β W V) : Pair E R Val β α V W where
  left := c.right
  leftTape := c.rightTape
  leftBroken := c.rightBroken
  right := c.left
  rightTape := c.leftTape
  rightBroken := c.leftBroken
  toLeft := c.toRight
  toRight := c.toLeft

/-- The pair before its first step. -/
def start (left : Prog (Act E Val) (Act.Answer R) α) (leftWorld : W)
    (right : Prog (Act E Val) (Act.Answer R) β) (rightWorld : V) : Pair E R Val α β W V where
  left := left
  leftTape := ⟨leftWorld, []⟩
  leftBroken := false
  right := right
  rightTape := ⟨rightWorld, []⟩
  rightBroken := false
  toLeft := []
  toRight := []

/-- A step of the left program. A frame of another kind than the one asked for is taken off the
    channel and may decode to anything. -/
inductive LeftStep (lossy : Prop) (sem : Sem E R (Tape (Event R Val) W)) :
    Pair E R Val α β W V → Pair E R Val α β W V → Prop
  | loop {c : Pair E R Val α β W V} {σ γ : Type}
      {body : σ → Prog (Act E Val) (Act.Answer R) (σ ⊕ γ)} {x : σ}
      {k : γ → Prog (Act E Val) (Act.Answer R) α} (at_loop : c.left = .loop body x k) :
      LeftStep lossy sem c { c with left := (body x).bind (resume body k) }
  | loc {c : Pair E R Val α β W V} {e : E}
      {k : R e → Prog (Act E Val) (Act.Answer R) α} {r : R e}
      {t : Tape (Event R Val) W} (calls : c.left = .call (.loc e) k)
      (answer : sem c.leftTape e r t) :
      LeftStep lossy sem c { c with left := k r, leftTape := t }
  | sent {c : Pair E R Val α β W V} {kd : K} {v : Val kd}
      {k : Bool → Prog (Act E Val) (Act.Answer R) α}
      (calls : c.left = .call (.send kd v) k) (up : c.leftBroken = false) :
      LeftStep lossy sem c
        { c with
          left := k true, leftTape := c.leftTape.record (.send kd v) true,
          toRight := c.toRight ++ [⟨kd, v⟩] }
  | unsent {c : Pair E R Val α β W V} {kd : K} {v : Val kd}
      {k : Bool → Prog (Act E Val) (Act.Answer R) α}
      (calls : c.left = .call (.send kd v) k) (fails : lossy ∨ c.leftBroken = true) :
      LeftStep lossy sem c
        { c with
          left := k false, leftTape := c.leftTape.record (.send kd v) false, leftBroken := true }
  | received {c : Pair E R Val α β W V} {kd : K} {v : Val kd} {rest : List (Frame Val)}
      {k : Option (Val kd) → Prog (Act E Val) (Act.Answer R) α}
      (calls : c.left = .call (.recv kd) k) (head : c.toLeft = ⟨kd, v⟩ :: rest) :
      LeftStep lossy sem c
        { c with
          left := k (some v), leftTape := c.leftTape.record (.recv kd) (some v), toLeft := rest }
  | garbled {c : Pair E R Val α β W V} {kd : K} {m : Frame Val} {rest : List (Frame Val)}
      {k : Option (Val kd) → Prog (Act E Val) (Act.Answer R) α} (r : Option (Val kd))
      (calls : c.left = .call (.recv kd) k) (head : c.toLeft = m :: rest) (differs : m.1 ≠ kd) :
      LeftStep lossy sem c
        { c with left := k r, leftTape := c.leftTape.record (.recv kd) r, toLeft := rest }
  | unreceived {c : Pair E R Val α β W V} {kd : K}
      {k : Option (Val kd) → Prog (Act E Val) (Act.Answer R) α}
      (calls : c.left = .call (.recv kd) k) (fails : lossy) :
      LeftStep lossy sem c
        { c with left := k none, leftTape := c.leftTape.record (.recv kd) none }

/-- A step of the pair is a step of one of the two programs. -/
inductive Step (lossy : Prop) (semL : Sem E R (Tape (Event R Val) W))
    (semR : Sem E R (Tape (Event R Val) V)) :
    Pair E R Val α β W V → Pair E R Val α β W V → Prop
  | left {c c' : Pair E R Val α β W V} (step : LeftStep lossy semL c c') :
      Step lossy semL semR c c'
  | right {c c' : Pair E R Val α β W V} (step : LeftStep lossy semR c.swap c'.swap) :
      Step lossy semL semR c c'

/-- The states a run of the pair can pass through. -/
abbrev Reach (lossy : Prop) (semL : Sem E R (Tape (Event R Val) W))
    (semR : Sem E R (Tape (Event R Val) V)) :
    Pair E R Val α β W V → Pair E R Val α β W V → Prop :=
  Relation.ReflTransGen (Step lossy semL semR)

/-- The left program and what it knows in position `p`. -/
def leftEnd (c : Pair E R Val α β W V) (p : P) :
    Prog (Act E Val) (Act.Answer R) α × Endpoint (Tape (Event R Val) W) P :=
  (c.left, { tape := c.leftTape, pos := p, broken := c.leftBroken })

/-- The right program and what it knows in position `p`. -/
def rightEnd (c : Pair E R Val α β W V) (p : P) :
    Prog (Act E Val) (Act.Answer R) β × Endpoint (Tape (Event R Val) V) P :=
  (c.right, { tape := c.rightTape, pos := p, broken := c.rightBroken })

@[simp] theorem swap_leftEnd (c : Pair E R Val α β W V) (p : P) :
    c.swap.leftEnd p = c.rightEnd p := rfl

@[simp] theorem swap_rightEnd (c : Pair E R Val α β W V) (p : P) :
    c.swap.rightEnd p = c.leftEnd p := rfl

/-! ### One side of a run

Forgetting the other program, a run of the pair is a run against an arbitrary peer. -/

section OneSide

variable {lossy : Prop} {semL : Sem E R (Tape (Event R Val) W)}
  {semR : Sem E R (Tape (Event R Val) V)}

theorem leftStep_solo {c c' : Pair E R Val α β W V} (step : LeftStep lossy semL c c') :
    Prog.Step (soloSem semL) (c.left, c.leftTape) (c'.left, c'.leftTape) ∧
      (c'.right, c'.rightTape) = (c.right, c.rightTape) := by
  cases step with
  | loop at_loop =>
      refine ⟨?_, rfl⟩
      rw [at_loop]
      exact .loop
  | loc calls answer =>
      refine ⟨?_, rfl⟩
      rw [calls]
      exact .call answer
  | sent calls _ =>
      refine ⟨?_, rfl⟩
      rw [calls]
      exact .call rfl
  | unsent calls _ =>
      refine ⟨?_, rfl⟩
      rw [calls]
      exact .call rfl
  | received calls _ =>
      refine ⟨?_, rfl⟩
      rw [calls]
      exact .call rfl
  | garbled r calls _ _ =>
      refine ⟨?_, rfl⟩
      rw [calls]
      exact .call rfl
  | unreceived calls _ =>
      refine ⟨?_, rfl⟩
      rw [calls]
      exact .call rfl

theorem step_solo {c c' : Pair E R Val α β W V} (step : Step lossy semL semR c c') :
    (Prog.Step (soloSem semL) (c.left, c.leftTape) (c'.left, c'.leftTape) ∧
        (c'.right, c'.rightTape) = (c.right, c.rightTape)) ∨
      (Prog.Step (soloSem semR) (c.right, c.rightTape) (c'.right, c'.rightTape) ∧
        (c'.left, c'.leftTape) = (c.left, c.leftTape)) := by
  cases step with
  | left step => exact Or.inl (leftStep_solo step)
  | right step => exact Or.inr (leftStep_solo step)

theorem reach_left_solo {c c' : Pair E R Val α β W V} (run : Reach lossy semL semR c c') :
    Prog.Reach (soloSem semL) (c.left, c.leftTape) (c'.left, c'.leftTape) := by
  induction run with
  | refl => exact .refl
  | tail _ last ih =>
      cases step_solo last with
      | inl moved => exact ih.tail moved.1
      | inr other => rwa [other.2]

theorem reach_right_solo {c c' : Pair E R Val α β W V} (run : Reach lossy semL semR c c') :
    Prog.Reach (soloSem semR) (c.right, c.rightTape) (c'.right, c'.rightTape) := by
  induction run with
  | refl => exact .refl
  | tail _ last ih =>
      cases step_solo last with
      | inl other => rwa [other.2]
      | inr moved => exact ih.tail moved.1

/-- What is on the log of the right program was called by it on the way. -/
theorem right_logged {env : List (Event R Val) → V → V → Prop} {sem : Sem E R V}
    {c c' : Pair E R Val α β W V} (run : Reach lossy semL (tapeSem env sem) c c')
    {event : Event R Val} (logged : event ∈ c'.rightTape.log) :
    event ∈ c.rightTape.log ∨ ∃ k c₁, Reach lossy semL (tapeSem env sem) c c₁ ∧
      Reach lossy semL (tapeSem env sem) c₁ c' ∧ c₁.right = .call event.1 k := by
  induction run with
  | refl => exact Or.inl logged
  | @tail mid last before step ih =>
      have came : event ∈ mid.rightTape.log ∨ ∃ k, mid.right = .call event.1 k := by
        cases step_solo step with
        | inl other =>
            have same : last.rightTape = mid.rightTape := congrArg Prod.snd other.2
            rw [same] at logged
            exact Or.inl logged
        | inr moved => exact step_logged moved.1 logged
      cases came with
      | inr now =>
          obtain ⟨k, here⟩ := now
          exact Or.inr ⟨k, mid, before, .single step, here⟩
      | inl earlier =>
          cases ih earlier with
          | inl already => exact Or.inl already
          | inr between =>
              obtain ⟨k, c₁, start, rest, here⟩ := between
              exact Or.inr ⟨k, c₁, start, rest.tail step, here⟩

/-- The right program alone was about to call it. -/
theorem right_called {env : List (Event R Val) → V → V → Prop} {sem : Sem E R V}
    {c c' : Pair E R Val α β W V} (run : Reach lossy semL (tapeSem env sem) c c')
    {event : Event R Val} (logged : event ∈ c'.rightTape.log) :
    event ∈ c.rightTape.log ∨ ∃ k t,
      Prog.Reach (soloSem (tapeSem env sem)) (c.right, c.rightTape) (.call event.1 k, t) := by
  rcases reach_logged (reach_right_solo run) logged with already | ⟨k, t, before, _⟩
  · exact Or.inl already
  · exact Or.inr ⟨k, t, before⟩

/-- Over a reliable connection no send ever fails. -/
theorem reach_up (reliable : ¬ lossy) {c c' : Pair E R Val α β W V}
    (run : Reach lossy semL semR c c') (upL : c.leftBroken = false)
    (upR : c.rightBroken = false) : c'.leftBroken = false ∧ c'.rightBroken = false := by
  have keeps : ∀ {γ δ X Y : Type} {sem : Sem E R (Tape (Event R Val) X)}
      {x x' : Pair E R Val γ δ X Y}, LeftStep lossy sem x x' → x.leftBroken = false →
      x'.leftBroken = false ∧ x'.rightBroken = x.rightBroken := by
    intro γ δ X Y sem x x' step up
    cases step with
    | unsent _ fails =>
        cases fails with
        | inl lost => exact absurd lost reliable
        | inr broken => rw [up] at broken; cases broken
    | loop _ => exact ⟨up, rfl⟩
    | loc _ _ => exact ⟨up, rfl⟩
    | sent _ _ => exact ⟨up, rfl⟩
    | received _ _ => exact ⟨up, rfl⟩
    | garbled _ _ _ _ => exact ⟨up, rfl⟩
    | unreceived _ _ => exact ⟨up, rfl⟩
  induction run with
  | refl => exact ⟨upL, upR⟩
  | tail _ last ih =>
      cases last with
      | left step =>
          obtain ⟨left, right⟩ := keeps step ih.1
          exact ⟨left, right.trans ih.2⟩
      | right step =>
          obtain ⟨right, left⟩ := keeps step ih.2
          exact ⟨left.trans ih.1, right⟩

end OneSide

/-- The program is at an operation that obeys the protocol, or at none. -/
def ObeysHere {T : Type} (proto : Protocol P Val) (side : Side) :
    Prog (Act E Val) (Act.Answer R) α × Endpoint T P → Prop
  | (.call a _, s) => Obeys proto side s (some a)
  | _ => True

/-- A step of the left program is a step against the protocol, and leaves the right side alone. -/
theorem leftStep_track {proto : Protocol P Val} {side : Side} {lossy : Prop} {sem : Sem E R (Tape (Event R Val) W)}
    {c c' : Pair E R Val α β W V} {p q : P} (step : LeftStep lossy sem c c')
    (obeys : ObeysHere proto side (c.leftEnd p))
    (compat : Compat proto side p c.toLeft q c.toRight) :
    ∃ p', Prog.Step (endpointSem proto side lossy sem) (c.leftEnd p) (c'.leftEnd p') ∧
      Compat proto side p' c'.toLeft q c'.toRight ∧ c'.rightEnd q = c.rightEnd q := by
  cases step with
  | loop at_loop =>
      refine ⟨p, ?_, compat, rfl⟩
      simp only [leftEnd, at_loop]
      exact .loop
  | loc calls answer =>
      refine ⟨p, ?_, compat, rfl⟩
      simp only [leftEnd, calls]
      exact .call ⟨_, answer, rfl⟩
  | @sent kd v k calls up =>
      simp only [leftEnd, ObeysHere, calls, Obeys, up, Bool.false_eq_true, false_or] at obeys
      refine ⟨proto.next p ⟨kd, v⟩, ?_, ?_, rfl⟩
      · simp only [leftEnd, calls, up]
        exact .call (Or.inl ⟨rfl, rfl, obeys.1, obeys.2, rfl⟩)
      · cases compat with
        | inl behind =>
            exact Or.inl ⟨behind.1, Protocol.path_append behind.2 obeys.1 obeys.2⟩
        | inr ahead =>
            -- it is this side's turn, so nothing the peer sent is still on its way
            have stays : proto.turn p ≠ some side.other := by
              rw [obeys.1]
              intro same
              exact side.other_ne (Option.some.inj same).symm
            obtain ⟨none_left, rfl⟩ := Protocol.path_eq_nil ahead.2 stays
            refine Or.inl ⟨none_left, ?_⟩
            simp only [ahead.1, List.nil_append]
            exact ⟨obeys.1, obeys.2, rfl⟩
  | unsent calls fails =>
      refine ⟨p, ?_, compat, rfl⟩
      simp only [leftEnd, calls]
      exact .call (Or.inr ⟨rfl, fails, rfl⟩)
  | @received kd v rest k calls head =>
      rw [head] at compat
      cases compat with
      | inl behind => exact absurd behind.1 (List.cons_ne_nil _ _)
      | inr ahead =>
          refine ⟨proto.next p ⟨kd, v⟩, ?_, Or.inr ⟨ahead.1, ahead.2.2.2⟩, rfl⟩
          simp only [leftEnd, calls]
          exact .call (Or.inl ⟨v, rfl, ahead.2.1, ahead.2.2.1, rfl⟩)
  | @garbled kd m rest k r calls head differs =>
      rw [head] at compat
      simp only [leftEnd, ObeysHere, calls, Obeys] at obeys
      cases compat with
      | inl behind => exact absurd behind.1 (List.cons_ne_nil _ _)
      | inr ahead =>
          cases obeys with
          | inl mine =>
              rw [ahead.2.1] at mine
              exact absurd (Option.some.inj mine.1) side.other_ne
          | inr theirs => exact absurd (theirs.2 m ahead.2.2.1) differs
  | unreceived calls fails =>
      refine ⟨p, ?_, compat, rfl⟩
      simp only [leftEnd, calls]
      exact .call (Or.inr ⟨rfl, fails, rfl⟩)

/-- A step of the right program is a step against the protocol, and leaves the left side alone. -/
theorem rightStep_track {proto : Protocol P Val} {lossy : Prop} {sem : Sem E R (Tape (Event R Val) V)}
    {c c' : Pair E R Val α β W V} {p q : P} (step : LeftStep lossy sem c.swap c'.swap)
    (obeys : ObeysHere proto .right (c.rightEnd q))
    (compat : Compat proto .left p c.toLeft q c.toRight) :
    ∃ q', Prog.Step (endpointSem proto .right lossy sem) (c.rightEnd q) (c'.rightEnd q') ∧
      Compat proto .left p c'.toLeft q' c'.toRight ∧ c'.leftEnd p = c.leftEnd p := by
  obtain ⟨q', moved, compat', same⟩ := leftStep_track step obeys compat.mirror
  exact ⟨q', moved, compat'.mirror, same⟩

section Tracking

variable {proto : Protocol P Val} {lossy totalL totalR : Prop} {semL : Sem E R (Tape (Event R Val) W)}
  {semR : Sem E R (Tape (Event R Val) V)}
  {guardL : Endpoint (Tape (Event R Val) W) P → Option (Act E Val) → Prop}
  {guardR : Endpoint (Tape (Event R Val) V) P → Option (Act E Val) → Prop}
  {postL : α → Endpoint (Tape (Event R Val) W) P → Prop}
  {postR : β → Endpoint (Tape (Event R Val) V) P → Prop}

/-- Both programs keep their specifications against the protocol from here on, and the frames in
    flight connect their positions. -/
structure Tracked (proto : Protocol P Val) (lossy : Prop) (semL : Sem E R (Tape (Event R Val) W))
    (semR : Sem E R (Tape (Event R Val) V))
    (guardL : Endpoint (Tape (Event R Val) W) P → Option (Act E Val) → Prop)
    (guardR : Endpoint (Tape (Event R Val) V) P → Option (Act E Val) → Prop)
    (totalL totalR : Prop) (postL : α → Endpoint (Tape (Event R Val) W) P → Prop)
    (postR : β → Endpoint (Tape (Event R Val) V) P → Prop)
    (c : Pair E R Val α β W V) (p q : P) : Prop where
  left : Wp (endpointSem proto .left lossy semL) guardL totalL (c.leftEnd p).1 (c.leftEnd p).2 postL
  right : Wp (endpointSem proto .right lossy semR) guardR totalR (c.rightEnd q).1 (c.rightEnd q).2
    postR
  compat : Compat proto .left p c.toLeft q c.toRight

theorem obeysHere_of_wp {U γ : Type} {side : Side} {sem : Sem E R (Tape (Event R Val) U)}
    {total : Prop} {guard : Endpoint (Tape (Event R Val) U) P → Option (Act E Val) → Prop}
    {post : γ → Endpoint (Tape (Event R Val) U) P → Prop}
    (obeys : ∀ s a, guard s a → Obeys proto side s a)
    {x : Prog (Act E Val) (Act.Answer R) γ × Endpoint (Tape (Event R Val) U) P}
    (wp : Wp (endpointSem proto side lossy sem) guard total x.1 x.2 post) :
    ObeysHere proto side x := by
  obtain ⟨p, s⟩ := x
  have here := wp.sound _ _ .refl
  cases p with
  | ret a => trivial
  | call a k => exact obeys s (some a) here
  | loop body x k => trivial

/-- The bridge lemma for one step. -/
theorem Tracked.step (obeysL : ∀ s a, guardL s a → Obeys proto .left s a)
    (obeysR : ∀ s a, guardR s a → Obeys proto .right s a) {c c' : Pair E R Val α β W V} {p q : P}
    (tracked : Tracked proto lossy semL semR guardL guardR totalL totalR postL postR c p q)
    (step : Step lossy semL semR c c') :
    ∃ p' q', Tracked proto lossy semL semR guardL guardR totalL totalR postL postR c' p' q' ∧
      ((Prog.Step (endpointSem proto .left lossy semL) (c.leftEnd p) (c'.leftEnd p') ∧
          c'.rightEnd q' = c.rightEnd q) ∨
        (Prog.Step (endpointSem proto .right lossy semR) (c.rightEnd q) (c'.rightEnd q') ∧
          c'.leftEnd p' = c.leftEnd p)) := by
  cases step with
  | left step =>
      obtain ⟨p', moved, compat, same⟩ :=
        leftStep_track step (obeysHere_of_wp obeysL tracked.left) tracked.compat
      refine ⟨p', q, ⟨tracked.left.reach (.single moved), ?_, compat⟩, Or.inl ⟨moved, same⟩⟩
      rw [same]
      exact tracked.right
  | right step =>
      obtain ⟨q', moved, compat, same⟩ :=
        rightStep_track step (obeysHere_of_wp obeysR tracked.right) tracked.compat
      refine ⟨p, q', ⟨?_, tracked.right.reach (.single moved), compat⟩, Or.inr ⟨moved, same⟩⟩
      rw [same]
      exact tracked.left

/-- Every run of the pair is, on each side, a run against the protocol. -/
theorem track (obeysL : ∀ s a, guardL s a → Obeys proto .left s a)
    (obeysR : ∀ s a, guardR s a → Obeys proto .right s a) {c c' : Pair E R Val α β W V} {p q : P}
    (tracked : Tracked proto lossy semL semR guardL guardR totalL totalR postL postR c p q)
    (run : Reach lossy semL semR c c') :
    ∃ p' q', Tracked proto lossy semL semR guardL guardR totalL totalR postL postR c' p' q' ∧
      Prog.Reach (endpointSem proto .left lossy semL) (c.leftEnd p) (c'.leftEnd p') ∧
      Prog.Reach (endpointSem proto .right lossy semR) (c.rightEnd q) (c'.rightEnd q') := by
  induction run with
  | refl => exact ⟨p, q, tracked, .refl, .refl⟩
  | tail _ last ih =>
      obtain ⟨p₁, q₁, tracked₁, runL, runR⟩ := ih
      obtain ⟨p₂, q₂, tracked₂, moved⟩ := tracked₁.step obeysL obeysR last
      cases moved with
      | inl left => exact ⟨p₂, q₂, tracked₂, runL.tail left.1, left.2 ▸ runR⟩
      | inr right => exact ⟨p₂, q₂, tracked₂, right.2 ▸ runL, runR.tail right.1⟩

/-- A frame at the head of a channel is received as the kind it was sent as. -/
theorem Tracked.same_kind (obeysL : ∀ s a, guardL s a → Obeys proto .left s a)
    {c : Pair E R Val α β W V} {p q : P}
    (tracked : Tracked proto lossy semL semR guardL guardR totalL totalR postL postR c p q)
    {kd : K} {k : Option (Val kd) → Prog (Act E Val) (Act.Answer R) α}
    (calls : c.left = .call (.recv kd) k) {m : Frame Val} {rest : List (Frame Val)}
    (head : c.toLeft = m :: rest) : m.1 = kd := by
  have obeys := obeysHere_of_wp obeysL tracked.left
  simp only [leftEnd, ObeysHere, calls, Obeys] at obeys
  have compat := tracked.compat
  rw [head] at compat
  cases compat with
  | inl behind => exact absurd behind.1 (List.cons_ne_nil _ _)
  | inr ahead =>
      cases obeys with
      | inl mine =>
          rw [ahead.2.1] at mine
          exact absurd (Option.some.inj mine.1) (Side.other_ne .left)
      | inr theirs => exact theirs.2 m ahead.2.2.1

/-- The pair seen from the other end is tracked by the protocol with the sides exchanged. -/
theorem Tracked.same_kind_right (obeysR : ∀ s a, guardR s a → Obeys proto .right s a)
    {c : Pair E R Val α β W V} {p q : P}
    (tracked : Tracked proto lossy semL semR guardL guardR totalL totalR postL postR c p q)
    {kd : K} {k : Option (Val kd) → Prog (Act E Val) (Act.Answer R) β}
    (calls : c.right = .call (.recv kd) k) {m : Frame Val} {rest : List (Frame Val)}
    (head : c.toRight = m :: rest) : m.1 = kd := by
  have obeys := obeysHere_of_wp obeysR tracked.right
  simp only [rightEnd, ObeysHere, calls, Obeys] at obeys
  have compat := tracked.compat
  rw [head] at compat
  cases compat with
  | inr ahead => exact absurd ahead.1 (List.cons_ne_nil _ _)
  | inl behind =>
      cases obeys with
      | inl mine =>
          rw [behind.2.1] at mine
          exact absurd (Option.some.inj mine.1) (Side.other_ne .right)
      | inr theirs => exact theirs.2 m behind.2.2.1

/-- Two sides whose connection is up never both wait for a frame while none is on its way. -/
theorem Tracked.not_both_wait (obeysL : ∀ s a, guardL s a → Obeys proto .left s a)
    (obeysR : ∀ s a, guardR s a → Obeys proto .right s a) {c : Pair E R Val α β W V} {p q : P}
    (tracked : Tracked proto lossy semL semR guardL guardR totalL totalR postL postR c p q)
    {kl kr : K} {k : Option (Val kl) → Prog (Act E Val) (Act.Answer R) α}
    {k' : Option (Val kr) → Prog (Act E Val) (Act.Answer R) β}
    (waitsL : c.left = .call (.recv kl) k) (waitsR : c.right = .call (.recv kr) k')
    (emptyL : c.toLeft = []) (emptyR : c.toRight = []) :
    c.leftBroken = true ∨ c.rightBroken = true := by
  have obeysL := obeysHere_of_wp obeysL tracked.left
  have obeysR := obeysHere_of_wp obeysR tracked.right
  have compat := tracked.compat
  rw [emptyL, emptyR] at compat
  cases compat.eq_of_empty
  simp only [leftEnd, ObeysHere, waitsL, Obeys] at obeysL
  simp only [rightEnd, ObeysHere, waitsR, Obeys] at obeysR
  cases obeysL with
  | inl mine => exact Or.inl mine.2
  | inr theirs =>
      cases obeysR with
      | inl mine => exact Or.inr mine.2
      | inr theirs' =>
          have clash := theirs.1.symm.trans theirs'.1
          exact absurd (Option.some.inj clash) (by simp [Side.other])

/-- A pair of terminating programs has no infinite run. The two inductions are on the runs of the two
    sides; every step of the pair shortens one of them and leaves the other alone. -/
theorem acc_of_terminates (obeysL : ∀ s a, guardL s a → Obeys proto .left s a)
    (obeysR : ∀ s a, guardR s a → Obeys proto .right s a) (askL : totalL) (askR : totalR)
    {c : Pair E R Val α β W V} {p q : P}
    (tracked : Tracked proto lossy semL semR guardL guardR totalL totalR postL postR c p q) :
    Acc (fun c' c => Step lossy semL semR c c') c := by
  have accL : Acc (fun x x' => Prog.Step (endpointSem proto .left lossy semL) x' x) (c.leftEnd p) :=
    (tracked.left.ends askL).acc
  have accR : Acc (fun x x' => Prog.Step (endpointSem proto .right lossy semR) x' x)
      (c.rightEnd q) := (tracked.right.ends askR).acc
  generalize hl : c.leftEnd p = l at accL
  generalize hr : c.rightEnd q = r at accR
  induction accL generalizing c p q r with
  | intro l _ ihL =>
      induction accR generalizing c p q with
      | intro r accR ihR =>
          refine .intro _ (fun c' step => ?_)
          obtain ⟨p', q', tracked', moved⟩ := tracked.step obeysL obeysR step
          cases moved with
          | inl left =>
              exact ihL _ (hl ▸ left.1) tracked' rfl r (left.2.trans hr) (Acc.intro r accR)
          | inr right => exact ihR _ (hr ▸ right.1) tracked' (right.2.trans hl) rfl

/-- A pair that has no infinite run comes to a stop. -/
theorem exists_stop {lossy : Prop} {semL : Sem E R (Tape (Event R Val) W)}
    {semR : Sem E R (Tape (Event R Val) V)} {c : Pair E R Val α β W V}
    (ends : Acc (fun c' c => Step lossy semL semR c c') c) :
    ∃ c', Reach lossy semL semR c c' ∧ ∀ c'', ¬ Step lossy semL semR c' c'' := by
  induction ends with
  | intro c _ ih =>
      by_cases stuck : ∀ c', ¬ Step lossy semL semR c c'
      · exact ⟨c, .refl, stuck⟩
      · obtain ⟨c', step⟩ := Classical.not_forall_not.mp stuck
        obtain ⟨last, run, stop⟩ := ih c' step
        exact ⟨last, .head step run, stop⟩

/-- A side that cannot move over a reliable connection has returned or waits for a frame. -/
theorem waits_of_stuck {γ δ X Y : Type} {side : Side} {sem : Sem E R (Tape (Event R Val) X)}
    {total : Prop} {guard : Endpoint (Tape (Event R Val) X) P → Option (Act E Val) → Prop}
    {post : γ → Endpoint (Tape (Event R Val) X) P → Prop} (ask : total) (reliable : ¬ lossy)
    {c : Pair E R Val γ δ X Y} {p : P} (up : c.leftBroken = false)
    (wp : Wp (endpointSem proto side lossy sem) guard total (c.leftEnd p).1 (c.leftEnd p).2 post)
    (stuck : ∀ c', ¬ LeftStep lossy sem c c') :
    (∃ a, c.left = .ret a) ∨
      (∃ kd k, c.left = .call (.recv kd) k ∧ c.toLeft = [] ∧ proto.turn p = some side.other) := by
  cases here : c.left with
  | ret a => exact Or.inl ⟨a, rfl⟩
  | loop body x k => exact absurd (.loop here) (stuck _)
  | call a k =>
      have ends := wp.ends ask
      simp only [leftEnd, here] at ends
      cases ends with
      | call answered _ =>
          obtain ⟨r, s', answer⟩ := answered
          cases a with
          | loc e =>
              obtain ⟨t, answer, _⟩ := answer
              exact absurd (.loc here answer) (stuck _)
          | send kd v => exact absurd (.sent here up) (stuck _)
          | recv kd =>
              rcases answer with ⟨v, _, turn, _, _⟩ | ⟨_, lost, _⟩
              · cases channel : c.toLeft with
                | nil => exact Or.inr ⟨kd, k, rfl, rfl, turn⟩
                | cons m rest =>
                    by_cases same : m.1 = kd
                    · obtain ⟨kd', v'⟩ := m
                      cases same
                      exact absurd (.received here channel) (stuck _)
                    · exact absurd (.garbled none here channel same) (stuck _)
              · exact absurd lost reliable

/-- Over a reliable connection, two terminating programs that end their conversation when they return
    only stop when both have returned. -/
theorem stuck_returned (obeysL : ∀ s a, guardL s a → Obeys proto .left s a)
    (obeysR : ∀ s a, guardR s a → Obeys proto .right s a) (askL : totalL) (askR : totalR)
    (reliable : ¬ lossy) (doneL : ∀ a s, postL a s → proto.turn s.pos = none)
    (doneR : ∀ b s, postR b s → proto.turn s.pos = none) {c : Pair E R Val α β W V} {p q : P}
    (tracked : Tracked proto lossy semL semR guardL guardR totalL totalR postL postR c p q)
    (upL : c.leftBroken = false) (upR : c.rightBroken = false)
    (stuck : ∀ c', ¬ Step lossy semL semR c c') :
    (∃ a, c.left = .ret a) ∧ ∃ b, c.right = .ret b := by
  have stuckL := waits_of_stuck askL reliable upL tracked.left (fun c' step => stuck c' (.left step))
  have still : ∀ c', ¬ LeftStep lossy semR c.swap c' := by
    intro c' step
    have mirrored : LeftStep lossy semR c.swap c'.swap.swap := step
    exact stuck c'.swap (.right mirrored)
  have stuckR := waits_of_stuck askR reliable (c := c.swap) upR tracked.right still
  rcases stuckL with ⟨a, retL⟩ | ⟨kl, k, waitsL, emptyL, turnL⟩
  · rcases stuckR with ⟨b, retR⟩ | ⟨kr, k', waitsR, emptyR, turnR⟩
    · exact ⟨⟨a, retL⟩, b, retR⟩
    · have ended := tracked.left
      simp only [leftEnd, retL, wp_ret] at ended
      have ended := doneL a _ ended
      simp only at ended
      have compat := tracked.compat
      rw [show c.toRight = [] from emptyR] at compat
      cases compat with
      | inl behind =>
          have same : q = p := behind.2
          rw [same, ended] at turnR
          cases turnR
      | inr ahead =>
          have same := (Protocol.path_eq_nil ahead.2 (by rw [ended]; simp)).2
          rw [← same, ended] at turnR
          cases turnR
  · have notDone : ∀ b, c.right ≠ .ret b := by
      intro b retR
      have ended := tracked.right
      simp only [rightEnd, retR, wp_ret] at ended
      have ended := doneR b _ ended
      simp only at ended
      have compat := tracked.compat
      rw [emptyL] at compat
      cases compat with
      | inl behind =>
          have same := (Protocol.path_eq_nil behind.2 (by rw [ended]; simp)).2
          rw [← same, ended] at turnL
          cases turnL
      | inr ahead =>
          have same : p = q := ahead.2
          rw [same, ended] at turnL
          cases turnL
    rcases stuckR with ⟨b, retR⟩ | ⟨kr, k', waitsR, emptyR, turnR⟩
    · exact absurd retR (notDone b)
    · have down := tracked.not_both_wait obeysL obeysR waitsL waitsR emptyL emptyR
      rw [upL, upR] at down
      simp at down

/-- Over a reliable connection two terminating programs that end their conversation when they return
    come to their ends whatever the schedule, and at the same position. -/
theorem settles (obeysL : ∀ s a, guardL s a → Obeys proto .left s a)
    (obeysR : ∀ s a, guardR s a → Obeys proto .right s a) (askL : totalL) (askR : totalR)
    (reliable : ¬ lossy) (doneL : ∀ a s, postL a s → proto.turn s.pos = none)
    (doneR : ∀ b s, postR b s → proto.turn s.pos = none) {c : Pair E R Val α β W V} {p q : P}
    (tracked : Tracked proto lossy semL semR guardL guardR totalL totalR postL postR c p q)
    (upL : c.leftBroken = false) (upR : c.rightBroken = false) :
    Acc (fun c' c => Step lossy semL semR c c') c ∧
      ∀ c', Reach lossy semL semR c c' → (∀ c'', ¬ Step lossy semL semR c' c'') →
        ∃ a b p, c'.left = .ret a ∧ c'.right = .ret b ∧
          postL a ⟨c'.leftTape, p, c'.leftBroken⟩ ∧ postR b ⟨c'.rightTape, p, c'.rightBroken⟩ := by
  refine ⟨acc_of_terminates obeysL obeysR askL askR tracked, ?_⟩
  intro c' run stuck
  obtain ⟨p', q', tracked', _, _⟩ := track obeysL obeysR tracked run
  obtain ⟨upL', upR'⟩ := reach_up reliable run upL upR
  obtain ⟨⟨a, left⟩, b, right⟩ := stuck_returned obeysL obeysR askL askR reliable doneL doneR tracked'
    upL' upR' stuck
  have hereL := tracked'.left
  have hereR := tracked'.right
  simp only [leftEnd, left, wp_ret] at hereL
  simp only [rightEnd, right, wp_ret] at hereR
  obtain rfl : p' = q' := tracked'.compat.eq_of_over (doneL a _ hereL) (doneR b _ hereR)
  exact ⟨a, b, p', left, right, hereL, hereR⟩

end Tracking

/-! ### Scripts for a pair -/

section Scripts

variable {C : Type} [DecidableEq K] {lossy : Prop} {semL : Sem E R (Tape (Event R Val) W)}
  {semR : Sem E R (Tape (Event R Val) V)}

/-- What a side does next: what it can, or lose the connection. -/
inductive Move (C : Type) where
  | act (choice : C)
  | lose

/-- One step of the left side. -/
def moveLeft (player : Player semL C) (m : Move C) (c : Pair E R Val α β W V) :
    Option (Pair E R Val α β W V) :=
  match c.left, m with
  | .ret _, _ => none
  | .loop body x k, _ => some { c with left := (body x).bind (resume body k) }
  | .call (.loc e) k, .act choice =>
      (player.answer choice c.leftTape e).map (fun out =>
        { c with left := k out.1, leftTape := out.2 })
  | .call (.loc _) _, .lose => none
  | .call (.send kd v) k, .act _ =>
      if c.leftBroken then none
      else some { c with
        left := k true, leftTape := c.leftTape.record (.send kd v) true,
        toRight := c.toRight ++ [⟨kd, v⟩] }
  | .call (.send kd v) k, .lose =>
      some { c with
        left := k false, leftTape := c.leftTape.record (.send kd v) false, leftBroken := true }
  | .call (.recv kd) k, .act _ =>
      match c.toLeft with
      | ⟨kd', v⟩ :: rest =>
          if same : kd' = kd then
            some { c with
              left := k (some (same ▸ v)),
              leftTape := c.leftTape.record (.recv kd) (some (same ▸ v)), toLeft := rest }
          else none
      | [] => none
  | .call (.recv kd) k, .lose =>
      some { c with left := k none, leftTape := c.leftTape.record (.recv kd) none }

theorem leftStep_move {player : Player semL C} {m : Move C} {c c' : Pair E R Val α β W V}
    (fails : m = .lose → lossy) (moved : moveLeft player m c = some c') :
    LeftStep lossy semL c c' := by
  unfold moveLeft at moved
  split at moved
  · cases moved
  · rename_i at_loop
    cases moved
    exact .loop at_loop
  · rename_i calls
    obtain ⟨out, answer, rfl⟩ := Option.map_eq_some_iff.mp moved
    exact .loc calls (player.sound answer)
  · cases moved
  · rename_i calls
    split at moved
    · cases moved
    · rename_i up
      cases moved
      exact .sent calls (by simpa using up)
  · rename_i calls
    cases moved
    exact .unsent calls (Or.inl (fails rfl))
  · rename_i calls
    split at moved
    · rename_i head
      split at moved
      · rename_i same
        cases same
        cases moved
        exact .received calls head
      · cases moved
    · cases moved
  · rename_i calls
    cases moved
    exact .unreceived calls (fails rfl)

/-- One step of either side. -/
def move (left : Player semL C) (right : Player semR C) (m : Side × Move C)
    (c : Pair E R Val α β W V) : Option (Pair E R Val α β W V) :=
  match m.1 with
  | .left => moveLeft left m.2 c
  | .right => (moveLeft right m.2 c.swap).map swap

/-- The run a script describes. -/
def play (left : Player semL C) (right : Player semR C) (script : List (Side × Move C))
    (c : Pair E R Val α β W V) : Pair E R Val α β W V :=
  script.foldl (fun c m => (move left right m c).getD c) c

theorem step_move {left : Player semL C} {right : Player semR C} {m : Side × Move C}
    {c c' : Pair E R Val α β W V} (fails : m.2 = .lose → lossy)
    (moved : move left right m c = some c') : Step lossy semL semR c c' := by
  obtain ⟨side, m⟩ := m
  cases side with
  | left => exact .left (leftStep_move fails moved)
  | right =>
      obtain ⟨d, stepped, rfl⟩ := Option.map_eq_some_iff.mp moved
      exact .right (leftStep_move fails stepped)

theorem reach_play (left : Player semL C) (right : Player semR C) (script : List (Side × Move C))
    (fails : ∀ m ∈ script, m.2 = .lose → lossy) (c : Pair E R Val α β W V) :
    Reach lossy semL semR c (play left right script c) := by
  induction script generalizing c with
  | nil => exact .refl
  | cons m rest ih =>
      rw [play, List.foldl_cons]
      have onwards := ih (fun m' member => fails m' (List.mem_cons_of_mem _ member))
      cases moved : move left right m c with
      | none => exact onwards c
      | some c' => exact .head (step_move (fails m List.mem_cons_self) moved) (onwards c')

omit [DecidableEq K] in
/-- Two programs that have returned take no step. -/
theorem no_step {c c' : Pair E R Val α β W V} {a : α} {b : β} (left : c.left.result = some a)
    (right : c.right.result = some b) : ¬ Step lossy semL semR c c' := by
  have stays : ∀ {γ δ X Y : Type} {sem : Sem E R (Tape (Event R Val) X)}
      {x x' : Pair E R Val γ δ X Y} {d : γ}, x.left = .ret d → ¬ LeftStep lossy sem x x' := by
    intro γ δ X Y sem x x' d returned step
    cases step with
    | loop at_loop => rw [returned] at at_loop; cases at_loop
    | loc calls _ | sent calls _ | unsent calls _ | received calls _ | garbled _ calls _ _
    | unreceived calls _ => rw [returned] at calls; cases calls
  intro step
  cases step with
  | left step => exact stays (Prog.eq_ret left) step
  | right step => exact stays (x := c.swap) (Prog.eq_ret right) step

end Scripts

end Pair

end ProgramLogic
