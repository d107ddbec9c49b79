/-
Module: Filerail.Logic.Endpoint
Layer: Logic (general library)
Purpose: One communicating program and the peers it may meet. Besides its local operations such a
  program sends and receives frames of fixed kinds. Its state is a `Tape`: its world and a log of the
  operations it has performed. `soloSem` runs it against a peer that may do anything; `endpointSem`
  runs it against every peer that keeps to a `Protocol`, an automaton that says whose turn it is and
  which frames may come next. Local programs are verified on their own and lifted.
Imports: Filerail.Logic.Program
Main exports: Act, Event, Tape, tapeSem, Prog.loc, soloSem, Protocol, Endpoint, endpointSem, Obeys,
  wp_lift, wp_solo_loc, wp_endpoint_loc, wp_send, wp_recv, reach_along, reach_logged
-/
import Filerail.Logic.Program

namespace ProgramLogic

open Prog

/-- The two ends of a connection. -/
inductive Side where
  | left
  | right
deriving DecidableEq, Repr

/-- The opposite end. -/
def Side.other : Side → Side
  | .left => .right
  | .right => .left

@[simp] theorem Side.other_other (side : Side) : side.other.other = side := by
  cases side <;> rfl

@[simp] theorem Side.other_ne (side : Side) : side.other ≠ side := by
  cases side <;> simp [Side.other]

@[simp] theorem Side.ne_other (side : Side) : side ≠ side.other := by
  cases side <;> simp [Side.other]

/-- The operations of a communicating program: local ones, and sending or receiving one frame of a
    kind. A send reports success; a receive reports the value it decoded, or nothing. -/
inductive Act (E : Type) {K : Type} (Val : K → Type) where
  | loc (event : E)
  | send (kind : K) (value : Val kind)
  | recv (kind : K)

/-- What each operation is answered with. -/
def Act.Answer {E K : Type} {Val : K → Type} (R : E → Type) : Act E Val → Type
  | .loc e => R e
  | .send _ _ => Bool
  | .recv k => Option (Val k)

/-- An operation that has been performed, with its answer. -/
abbrev Event {E K : Type} (R : E → Type) (Val : K → Type) := Σ a : Act E Val, a.Answer R

/-- A frame on the wire: a value together with the kind it was sent as. -/
abbrev Frame {K : Type} (Val : K → Type) := Sigma Val

/-- A world, and what has happened in it, the latest first. -/
structure Tape (Ev W : Type) where
  world : W
  log : List Ev

section Local

variable {K E W α β σ : Type} {Val : K → Type} {R : E → Type}

/-- Enter an operation of the connection. -/
def Tape.record (t : Tape (Event R Val) W) (a : Act E Val) (r : a.Answer R) :
    Tape (Event R Val) W :=
  { t with log := ⟨a, r⟩ :: t.log }

@[simp] theorem Tape.record_world (t : Tape (Event R Val) W) (a : Act E Val) (r : a.Answer R) :
    (t.record a r).world = t.world := rfl

@[simp] theorem Tape.record_log (t : Tape (Event R Val) W) (a : Act E Val) (r : a.Answer R) :
    (t.record a r).log = ⟨a, r⟩ :: t.log := rfl

/-- Local operations on a tape. Before each of them others may have changed the world in the ways
    `env` allows, which may depend on how far this program has come. -/
def tapeSem (env : List (Event R Val) → W → W → Prop) (sem : Sem E R W) :
    Sem E R (Tape (Event R Val) W) :=
  fun t e r t' => ∃ w w', env t.log t.world w ∧ sem w e r w' ∧ t' = ⟨w', ⟨.loc e, r⟩ :: t.log⟩

/-- The environment that leaves the world alone. -/
def still : List (Event R Val) → W → W → Prop := fun _ w w' => w = w'

theorem tapeSem_still {sem : Sem E R W} {t t' : Tape (Event R Val) W} {e : E} {r : R e} :
    tapeSem still sem t e r t' ↔
      ∃ w', sem t.world e r w' ∧ t' = ⟨w', ⟨.loc e, r⟩ :: t.log⟩ := by
  constructor
  · rintro ⟨w, w', rfl, answer, rfl⟩
    exact ⟨w', answer, rfl⟩
  · rintro ⟨w', answer, rfl⟩
    exact ⟨t.world, w', rfl, answer, rfl⟩

namespace Prog

/-- A program without communication, as a communicating one. -/
def loc {K E : Type} {V : K → Type} {R : E → Type} :
    {α : Type} → Prog E R α → Prog (Act E V) (Act.Answer R) α
  | _, .ret a => .ret a
  | _, .call e k => .call (.loc e) (fun r => loc (k r))
  | _, .loop body x k => .loop (fun y => loc (body y)) x (fun b => loc (k b))

@[simp] theorem loc_ret (a : α) : (Prog.ret a : Prog E R α).loc (V := Val) = .ret a := rfl

theorem loc_bind (p : Prog E R α) (f : α → Prog E R β) :
    (p.bind f).loc (V := Val) = p.loc.bind (fun a => (f a).loc) := by
  induction p with
  | ret a => rfl
  | call e k ih =>
      simp only [call_bind, loc]
      congr 1
      funext r
      exact ih r f
  | loop body x k _ ih =>
      simp only [loop_bind, loc]
      congr 1
      funext b
      exact ih b f

theorem loc_resume (body : σ → Prog E R (σ ⊕ β)) (k : β → Prog E R α) (a : σ ⊕ β) :
    (resume body k a).loc (V := Val) =
      resume (fun y => (body y).loc) (fun b => (k b).loc) a := by
  cases a <;> rfl

end Prog

/-- The operations of a lifted program are the local ones of the program. -/
theorem Prog.Calls.lift {P : Act E Val → Prop} {p : Prog E R α} (calls : p.Calls (fun e => P (.loc e))) :
    (p.loc (V := Val)).Calls P := by
  induction p with
  | ret a => trivial
  | call e k ih => exact ⟨calls.1, fun r => ih r (calls.2 r)⟩
  | loop body x k ihBody ihRest =>
      exact ⟨fun y => ihBody y (calls.1 y), fun b => ihRest b (calls.2 b)⟩

theorem Prog.Calls.all {P : E → Prop} (all : ∀ e, P e) (p : Prog E R α) : p.Calls P := by
  induction p with
  | ret a => trivial
  | call e k ih => exact ⟨all e, ih⟩
  | loop body x k ihBody ihRest => exact ⟨ihBody, ihRest⟩

theorem Prog.Returns.loc {P : α → Prop} {p : Prog E R α} (returns : p.Returns P) :
    (p.loc (V := Val)).Returns P := by
  induction p with
  | ret a => exact returns
  | call e k ih => exact fun r => ih r (returns r)
  | loop body x k _ ih => exact fun b => ih b (returns b)

theorem Prog.Calls.loc {P : Act E Val → Prop} (all : ∀ e, P (.loc e)) (p : Prog E R α) :
    (p.loc (V := Val)).Calls P :=
  Prog.Calls.lift (Prog.Calls.all all p)

/-- A program that nobody disturbs runs in the same way whatever has happened before. -/
theorem reach_relog {sem : Sem E R W} {log : List (Event R Val)} {p q : Prog E R α} {w : W}
    {t : Tape (Event R Val) W} (run : Prog.Reach (tapeSem still sem) (p, ⟨w, log⟩) (q, t))
    (log' : List (Event R Val)) :
    ∃ more, t.log = more ++ log ∧
      Prog.Reach (tapeSem still sem) (p, ⟨w, log'⟩) (q, ⟨t.world, more ++ log'⟩) := by
  generalize here : (q, t) = last at run
  induction run generalizing q t with
  | refl =>
      cases here
      exact ⟨[], rfl, .refl⟩
  | @tail mid _ _ step ih =>
      subst here
      obtain ⟨p₁, t₁⟩ := mid
      obtain ⟨more, grown, run'⟩ := ih rfl
      cases step with
      | loop => exact ⟨more, grown, run'.tail .loop⟩
      | @call e k _ _ r answer =>
          obtain ⟨w', answer', rfl⟩ := tapeSem_still.mp answer
          refine ⟨⟨.loc e, r⟩ :: more, congrArg (⟨.loc e, r⟩ :: ·) grown, run'.tail (.call ?_)⟩
          exact tapeSem_still.mpr ⟨w', answer', rfl⟩

/-- It comes to an end in the same way, too. -/
theorem terminates_relog {sem : Sem E R W} {p : Prog E R α} {t t' : Tape (Event R Val) W}
    (ends : Terminates (tapeSem still sem) p t) (same : t'.world = t.world) :
    Terminates (tapeSem still sem) p t' := by
  induction ends generalizing t' with
  | ret => exact .ret
  | call answered _ ih =>
      refine .call ?_ (fun r t₂ answer => ?_)
      · obtain ⟨r, t₁, answer⟩ := answered
        obtain ⟨w', answer', _⟩ := tapeSem_still.mp answer
        exact ⟨r, _, tapeSem_still.mpr ⟨w', same ▸ answer', rfl⟩⟩
      · obtain ⟨w', answer', rfl⟩ := tapeSem_still.mp answer
        exact ih r _ (tapeSem_still.mpr ⟨w', same ▸ answer', rfl⟩) rfl
  | loop _ ih => exact .loop (ih same)

end Local

/-! ### Lifting local programs

`put` enters a tape into the state of a communicating program; its semantics has to answer local
operations through the tape and nothing else. -/

section Lift

variable {K E T U α : Type} {Val : K → Type} {R : E → Type}

private theorem step_loc {sem : Sem E R T} {bsem : Sem (Act E Val) (Act.Answer R) U} {put : T → U}
    (agrees : ∀ t e r u, bsem (put t) (.loc e) r u ↔ ∃ t', sem t e r t' ∧ u = put t')
    {p : Prog E R α} {t : T} {c : Prog (Act E Val) (Act.Answer R) α × U}
    (step : Prog.Step bsem (p.loc, put t) c) :
    ∃ p' t', Prog.Step sem (p, t) (p', t') ∧ c = (p'.loc, put t') := by
  cases p with
  | ret a => exact (step_ret_inv step).elim
  | call e k =>
      obtain ⟨r, u, answer, rfl⟩ := step_call_inv step
      obtain ⟨t', answer', rfl⟩ := (agrees t e r u).mp answer
      exact ⟨k r, t', .call answer', rfl⟩
  | loop body x k =>
      refine ⟨(body x).bind (resume body k), t, .loop, ?_⟩
      rw [step_loop_inv step, Prog.loc_bind]
      congr 2
      funext a
      exact (Prog.loc_resume body k a).symm

private theorem reach_loc {sem : Sem E R T} {bsem : Sem (Act E Val) (Act.Answer R) U} {put : T → U}
    (agrees : ∀ t e r u, bsem (put t) (.loc e) r u ↔ ∃ t', sem t e r t' ∧ u = put t')
    {p : Prog E R α} {t : T} {c : Prog (Act E Val) (Act.Answer R) α × U}
    (run : Prog.Reach bsem (p.loc, put t) c) :
    ∃ p' t', Prog.Reach sem (p, t) (p', t') ∧ c = (p'.loc, put t') := by
  induction run with
  | refl => exact ⟨p, t, .refl, rfl⟩
  | tail _ last ih =>
      obtain ⟨p₁, t₁, run₁, rfl⟩ := ih
      obtain ⟨p₂, t₂, step, rfl⟩ := step_loc agrees last
      exact ⟨p₂, t₂, run₁.tail step, rfl⟩

private theorem terminates_loc {sem : Sem E R T} {bsem : Sem (Act E Val) (Act.Answer R) U}
    {put : T → U} (agrees : ∀ t e r u, bsem (put t) (.loc e) r u ↔ ∃ t', sem t e r t' ∧ u = put t')
    {p : Prog E R α} {t : T} (ends : Terminates sem p t) :
    Terminates bsem (p.loc (V := Val)) (put t) := by
  induction ends with
  | ret => exact .ret
  | @call _ e k t answered _ ih =>
      refine .call ?_ (fun r u answer => ?_)
      · obtain ⟨r, t', answer⟩ := answered
        exact ⟨r, put t', (agrees t e r (put t')).mpr ⟨t', answer, rfl⟩⟩
      · obtain ⟨t', answer', rfl⟩ := (agrees _ _ _ _).mp answer
        exact ih r t' answer'
  | @loop σ γ _ body x k t _ ih =>
      refine .loop ?_
      rw [Prog.loc_bind] at ih
      have rounds : (fun a => (resume body k a).loc (V := Val)) =
          resume (fun y => (body y).loc) (fun b => (k b).loc) := by
        funext a
        exact Prog.loc_resume body k a
      rwa [rounds] at ih

/-- A specification of a local program is one of its lifting. -/
theorem wp_lift {sem : Sem E R T} {bsem : Sem (Act E Val) (Act.Answer R) U} (put : T → U)
    (agrees : ∀ t e r u, bsem (put t) (.loc e) r u ↔ ∃ t', sem t e r t' ∧ u = put t')
    {guard : U → Option (Act E Val) → Prop} {total : Prop} {p : Prog E R α} {t : T}
    {post : α → U → Prop}
    (wp : Wp sem (fun t e => guard (put t) (e.map .loc)) total p t (fun a t' => post a (put t'))) :
    Wp bsem guard total (p.loc (V := Val)) (put t) post := by
  refine ⟨fun q u run => ?_, fun ask => terminates_loc agrees (wp.ends ask)⟩
  obtain ⟨p', t', run', same⟩ := reach_loc agrees run
  cases same
  have here := wp.sound _ _ run'
  cases p' with
  | ret a => exact here
  | call e k => exact here
  | loop body x k => exact here

end Lift

/-! ### An arbitrary peer -/

section Solo

variable {K E W α : Type} {Val : K → Type} {R : E → Type}

/-- The program against a peer that may accept or refuse every frame and send anything. -/
def soloSem (sem : Sem E R (Tape (Event R Val) W)) :
    Sem (Act E Val) (Act.Answer R) (Tape (Event R Val) W)
  | t, .loc e, r, t' => sem t e r t'
  | t, .send k v, r, t' => t' = t.record (.send k v) r
  | t, .recv k, r, t' => t' = t.record (.recv k) r

theorem wp_solo_loc {sem : Sem E R (Tape (Event R Val) W)}
    {guard : Tape (Event R Val) W → Option (Act E Val) → Prop} {total : Prop} {p : Prog E R α}
    {t : Tape (Event R Val) W} {post : α → Tape (Event R Val) W → Prop}
    (wp : Wp sem (fun t e => guard t (e.map .loc)) total p t post) :
    Wp (soloSem sem) guard total p.loc t post :=
  wp_lift id (fun t e r u => ⟨fun answer => ⟨u, answer, rfl⟩, by
    rintro ⟨t', answer, rfl⟩
    exact answer⟩) wp

section Calls

variable {sem : Sem E R (Tape (Event R Val) W)}
  {guard : Tape (Event R Val) W → Option (Act E Val) → Prop} {total : Prop}
  {t : Tape (Event R Val) W} {post : α → Tape (Event R Val) W → Prop} {k : K}

/-- An arbitrary peer may take a frame or not. -/
theorem wp_solo_send {v : Val k} {f : Bool → Prog (Act E Val) (Act.Answer R) α}
    (here : guard t (some (.send k v)))
    (next : ∀ r, Wp (soloSem sem) guard total (f r) (t.record (.send k v) r) post) :
    Wp (soloSem sem) guard total
      ((perform (E := Act E Val) (R := Act.Answer R) (.send k v)).bind f) t post := by
  refine wp_perform_bind.mpr ⟨here, fun _ => ⟨true, _, rfl⟩, ?_⟩
  rintro r _ rfl
  exact next r

/-- An arbitrary peer may send anything, or nothing. -/
theorem wp_solo_recv {f : Option (Val k) → Prog (Act E Val) (Act.Answer R) α}
    (here : guard t (some (.recv k)))
    (next : ∀ r, Wp (soloSem sem) guard total (f r) (t.record (.recv k) r) post) :
    Wp (soloSem sem) guard total
      ((perform (E := Act E Val) (R := Act.Answer R) (.recv k)).bind f) t post := by
  refine wp_perform_bind.mpr ⟨here, fun _ => ⟨none, _, rfl⟩, ?_⟩
  rintro r _ rfl
  exact next r

theorem step_solo_loc {e : E} {f : R e → Prog (Act E Val) (Act.Answer R) α}
    {t' : Tape (Event R Val) W} {r : R e} (answer : sem t e r t') :
    Prog.Step (soloSem sem) ((Prog.loc (perform e)).bind f, t) (f r, t') := by
  have step : Prog.Step (soloSem sem) (.call (.loc e) f, t) (f r, t') := .call answer
  exact step

theorem step_solo_send {v : Val k} {f : Bool → Prog (Act E Val) (Act.Answer R) α} (r : Bool) :
    Prog.Step (soloSem sem)
      ((perform (E := Act E Val) (R := Act.Answer R) (.send k v)).bind f, t)
      (f r, t.record (.send k v) r) := by
  have step : Prog.Step (soloSem sem) (.call (.send k v) f, t) (f r, t.record (.send k v) r) :=
    .call rfl
  exact step

end Calls

/-- A run of a local program is a run against any peer. -/
theorem reach_solo_loc {sem : Sem E R (Tape (Event R Val) W)}
    {c c' : Prog E R α × Tape (Event R Val) W} (run : Prog.Reach sem c c') :
    Prog.Reach (soloSem sem) (c.1.loc, c.2) (c'.1.loc, c'.2) := by
  induction run with
  | refl => exact .refl
  | tail _ last ih =>
      refine ih.tail ?_
      cases last with
      | call answer => exact .call answer
      | @loop σ β body x k s =>
          have rounds : ((body x).bind (resume body k)).loc (V := Val) =
              (body x).loc.bind (resume (fun y => (body y).loc) (fun b => (k b).loc)) := by
            rw [Prog.loc_bind]
            congr 1
            funext a
            exact Prog.loc_resume body k a
          rw [rounds]
          exact .loop

end Solo

/-! ### A peer that keeps to a protocol -/

/-- Whose turn it is in a position, which frames may be sent there, and where they lead. -/
structure Protocol (P : Type) {K : Type} (Val : K → Type) where
  turn : P → Option Side
  allowed : P → Frame Val → Prop
  next : P → Frame Val → P

/-- What one side knows: its own tape, how far the conversation has come, and whether a send of its
    own has failed (after which the connection carries nothing more from it). -/
structure Endpoint (T P : Type) where
  tape : T
  pos : P
  broken : Bool

section Endpoints

variable {K E P W α : Type} {Val : K → Type} {R : E → Type}

/-- One side of the protocol, run against every peer that keeps to it. With `lossy` a send may fail
    and a receive may come back empty at any time. -/
def endpointSem (proto : Protocol P Val) (side : Side) (lossy : Prop)
    (sem : Sem E R (Tape (Event R Val) W)) :
    Sem (Act E Val) (Act.Answer R) (Endpoint (Tape (Event R Val) W) P)
  | s, .loc e, r, s' => ∃ t, sem s.tape e r t ∧ s' = { s with tape := t }
  | s, .send k v, r, s' =>
      (r = true ∧ s.broken = false ∧ proto.turn s.pos = some side ∧ proto.allowed s.pos ⟨k, v⟩ ∧
        s' = { s with tape := s.tape.record (.send k v) true, pos := proto.next s.pos ⟨k, v⟩ }) ∨
      (r = false ∧ (lossy ∨ s.broken = true) ∧
        s' = { s with tape := s.tape.record (.send k v) false, broken := true })
  | s, .recv k, r, s' =>
      (∃ v, r = some v ∧ proto.turn s.pos = some side.other ∧ proto.allowed s.pos ⟨k, v⟩ ∧
        s' = { s with tape := s.tape.record (.recv k) (some v), pos := proto.next s.pos ⟨k, v⟩ }) ∨
      (r = none ∧ lossy ∧ s' = { s with tape := s.tape.record (.recv k) none })

/-- The side only sends when it may, what it may, and only receives the kind that may come next. -/
def Obeys {T : Type} (proto : Protocol P Val) (side : Side) (s : Endpoint T P) :
    Option (Act E Val) → Prop
  | some (.send k v) =>
      s.broken = true ∨ (proto.turn s.pos = some side ∧ proto.allowed s.pos ⟨k, v⟩)
  | some (.recv k) =>
      (proto.turn s.pos = some side ∧ s.broken = true) ∨
      (proto.turn s.pos = some side.other ∧ ∀ m, proto.allowed s.pos m → m.1 = k)
  | _ => True

variable {proto : Protocol P Val} {side : Side} {lossy : Prop}
  {sem : Sem E R (Tape (Event R Val) W)}
  {guard : Endpoint (Tape (Event R Val) W) P → Option (Act E Val) → Prop} {total : Prop}

theorem wp_endpoint_loc {p : Prog E R α} {s : Endpoint (Tape (Event R Val) W) P}
    {post : α → Endpoint (Tape (Event R Val) W) P → Prop}
    (wp : Wp sem (fun t e => guard { s with tape := t } (e.map .loc)) total p s.tape
      (fun a t => post a { s with tape := t })) :
    Wp (endpointSem proto side lossy sem) guard total p.loc s post :=
  wp_lift (fun t => { s with tape := t }) (fun _ _ _ _ => Iff.rfl) wp

/-- The rule of a send. -/
theorem wp_send {k : K} {v : Val k} {f : Bool → Prog (Act E Val) (Act.Answer R) α}
    {s : Endpoint (Tape (Event R Val) W) P}
    {post : α → Endpoint (Tape (Event R Val) W) P → Prop}
    (here : guard s (some (.send k v)))
    (able : total → s.broken = true ∨ (proto.turn s.pos = some side ∧ proto.allowed s.pos ⟨k, v⟩))
    (sent : s.broken = false → proto.turn s.pos = some side → proto.allowed s.pos ⟨k, v⟩ →
      Wp (endpointSem proto side lossy sem) guard total (f true)
        { s with tape := s.tape.record (.send k v) true, pos := proto.next s.pos ⟨k, v⟩ } post)
    (unsent : lossy ∨ s.broken = true →
      Wp (endpointSem proto side lossy sem) guard total (f false)
        { s with tape := s.tape.record (.send k v) false, broken := true } post) :
    Wp (endpointSem proto side lossy sem) guard total ((perform (E := Act E Val) (R := Act.Answer R) (.send k v)).bind f) s post := by
  refine wp_perform_bind.mpr ⟨here, fun ask => ?_, ?_⟩
  · by_cases down : s.broken = true
    · exact ⟨false, _, Or.inr ⟨rfl, Or.inr down, rfl⟩⟩
    · cases able ask with
      | inl broken => exact absurd broken down
      | inr may =>
          exact ⟨true, _, Or.inl ⟨rfl, by simpa using down, may.1, may.2, rfl⟩⟩
  · rintro r s' (⟨rfl, up, turn, allowed, rfl⟩ | ⟨rfl, fails, rfl⟩)
    · exact sent up turn allowed
    · exact unsent fails

/-- The rule of a receive. -/
theorem wp_recv {k : K} {f : Option (Val k) → Prog (Act E Val) (Act.Answer R) α}
    {s : Endpoint (Tape (Event R Val) W) P}
    {post : α → Endpoint (Tape (Event R Val) W) P → Prop}
    (here : guard s (some (.recv k)))
    (able : total → lossy ∨ (proto.turn s.pos = some side.other ∧ ∃ v, proto.allowed s.pos ⟨k, v⟩))
    (received : ∀ v, proto.turn s.pos = some side.other → proto.allowed s.pos ⟨k, v⟩ →
      Wp (endpointSem proto side lossy sem) guard total (f (some v))
        { s with tape := s.tape.record (.recv k) (some v), pos := proto.next s.pos ⟨k, v⟩ } post)
    (unreceived : lossy →
      Wp (endpointSem proto side lossy sem) guard total (f none)
        { s with tape := s.tape.record (.recv k) none } post) :
    Wp (endpointSem proto side lossy sem) guard total ((perform (E := Act E Val) (R := Act.Answer R) (.recv k)).bind f) s post := by
  refine wp_perform_bind.mpr ⟨here, fun ask => ?_, ?_⟩
  · cases able ask with
    | inl lost => exact ⟨none, _, Or.inr ⟨rfl, lost, rfl⟩⟩
    | inr comes =>
        obtain ⟨turn, v, allowed⟩ := comes
        exact ⟨some v, _, Or.inl ⟨v, rfl, turn, allowed, rfl⟩⟩
  · rintro r s' (⟨v, rfl, turn, allowed, rfl⟩ | ⟨rfl, lost, rfl⟩)
    · exact received v turn allowed
    · exact unreceived lost

/-- What can happen against a protocol can happen against an arbitrary peer. -/
theorem solo_of_endpoint {a : Act E Val} {r : a.Answer R} {s s' : Endpoint (Tape (Event R Val) W) P}
    (answer : endpointSem proto side lossy sem s a r s') : soloSem sem s.tape a r s'.tape := by
  cases a with
  | loc e =>
      obtain ⟨t, answer, rfl⟩ := answer
      exact answer
  | send k v =>
      rcases answer with ⟨rfl, _, _, _, rfl⟩ | ⟨rfl, _, rfl⟩
      · rfl
      · rfl
  | recv k =>
      rcases answer with ⟨v, rfl, _, _, rfl⟩ | ⟨rfl, _, rfl⟩
      · rfl
      · rfl

/-- A property of the position and the log holds all along a run if it outlives what does not move the
    conversation, and what does move it keeps it. -/
theorem reach_along {env : List (Event R Val) → W → W → Prop} {calls : Sem E R W}
    {I : P → List (Event R Val) → Prop}
    {post : α → Endpoint (Tape (Event R Val) W) P → Prop}
    {c c' : Prog (Act E Val) (Act.Answer R) α × Endpoint (Tape (Event R Val) W) P}
    (wp : Wp (endpointSem proto side lossy (tapeSem env calls)) guard False c.1 c.2 post)
    (run : Prog.Reach (endpointSem proto side lossy (tapeSem env calls)) c c')
    (start : I c.2.pos c.2.tape.log)
    (stays : ∀ p log (e : E) (r : R e), I p log → I p (⟨.loc e, r⟩ :: log))
    (unsent : ∀ p log k (v : Val k), I p log → I p (⟨.send k v, false⟩ :: log))
    (unreceived : ∀ p log (k : K), I p log → I p (⟨.recv k, none⟩ :: log))
    (sent : ∀ (s : Endpoint (Tape (Event R Val) W) P) k (v : Val k), guard s (some (.send k v)) →
      proto.turn s.pos = some side → proto.allowed s.pos ⟨k, v⟩ → I s.pos s.tape.log →
      I (proto.next s.pos ⟨k, v⟩) (⟨.send k v, true⟩ :: s.tape.log))
    (received : ∀ (s : Endpoint (Tape (Event R Val) W) P) k (v : Val k),
      proto.turn s.pos = some side.other → proto.allowed s.pos ⟨k, v⟩ → I s.pos s.tape.log →
      I (proto.next s.pos ⟨k, v⟩) (⟨.recv k, some v⟩ :: s.tape.log)) :
    I c'.2.pos c'.2.tape.log := by
  induction run with
  | refl => exact start
  | @tail mid last before step ih =>
      have here := wp.sound mid.1 mid.2 before
      cases step with
      | loop => exact ih
      | @call a _ _ _ r answer =>
          cases a with
          | loc e =>
              obtain ⟨_, ⟨w, w', _, _, rfl⟩, rfl⟩ := answer
              exact stays _ _ e r ih
          | send k v =>
              rcases answer with ⟨rfl, _, turn, may, rfl⟩ | ⟨rfl, _, rfl⟩
              · exact sent _ k v here turn may ih
              · exact unsent _ _ k v ih
          | recv k =>
              rcases answer with ⟨v, rfl, turn, may, rfl⟩ | ⟨rfl, _, rfl⟩
              · exact received _ k v turn may ih
              · exact unreceived _ _ k ih

/-! ### Where a run has been -/

/-- Every operation is entered in the log. -/
theorem solo_logs {env : List (Event R Val) → W → W → Prop} {sem : Sem E R W}
    {t t' : Tape (Event R Val) W} {a : Act E Val} {r : a.Answer R}
    (answer : soloSem (tapeSem env sem) t a r t') : t'.log = ⟨a, r⟩ :: t.log := by
  cases a with
  | loc e =>
      obtain ⟨w, w', _, _, rfl⟩ := answer
      rfl
  | send k v => rw [(answer : t' = _)]; rfl
  | recv k => rw [(answer : t' = _)]; rfl

/-- One step adds at most the operation it performs to the log. -/
theorem step_logged {env : List (Event R Val) → W → W → Prop} {sem : Sem E R W}
    {p p' : Prog (Act E Val) (Act.Answer R) α} {t t' : Tape (Event R Val) W}
    (step : Prog.Step (soloSem (tapeSem env sem)) (p, t) (p', t')) {event : Event R Val}
    (logged : event ∈ t'.log) : event ∈ t.log ∨ ∃ k, p = .call event.1 k := by
  cases step with
  | loop => exact Or.inl logged
  | @call a k _ _ r answer =>
      rw [solo_logs answer, List.mem_cons] at logged
      cases logged with
      | inl now =>
          cases now
          exact Or.inr ⟨k, rfl⟩
      | inr earlier => exact Or.inl earlier

/-- What is on the log was called on the way. -/
theorem reach_logged {env : List (Event R Val) → W → W → Prop} {sem : Sem E R W}
    {c c' : Prog (Act E Val) (Act.Answer R) α × Tape (Event R Val) W}
    (run : Prog.Reach (soloSem (tapeSem env sem)) c c') {event : Event R Val}
    (logged : event ∈ c'.2.log) :
    event ∈ c.2.log ∨ ∃ k t, Prog.Reach (soloSem (tapeSem env sem)) c (.call event.1 k, t) ∧
      Prog.Reach (soloSem (tapeSem env sem)) (.call event.1 k, t) c' := by
  induction run with
  | refl => exact Or.inl logged
  | @tail mid last before step ih =>
      cases step_logged (p := mid.1) (t := mid.2) step logged with
      | inr now =>
          obtain ⟨k, here⟩ := now
          refine Or.inr ⟨k, mid.2, ?_, ?_⟩
          · rw [← here]
            exact before
          · rw [← here]
            exact .single step
      | inl earlier =>
          cases ih earlier with
          | inl already => exact Or.inl already
          | inr between =>
              obtain ⟨k, t, start, rest⟩ := between
              exact Or.inr ⟨k, t, start, rest.tail step⟩

end Endpoints

/-! ### Scripts for a program and its peer -/

section Scripts

variable {K E W C α : Type} {Val : K → Type} {R : E → Type}

/-- Picks answers for calls on a tape. -/
def Player.onTape {sem : Sem E R W} (player : Player sem C) :
    Player (tapeSem (still : List (Event R Val) → W → W → Prop) sem) C where
  answer choice t e :=
    (player.answer choice t.world e).map (fun out => (out.1, ⟨out.2, ⟨.loc e, out.1⟩ :: t.log⟩))
  sound := by
    intro choice t e r t' answer
    obtain ⟨out, picked, same⟩ := Option.map_eq_some_iff.mp answer
    cases same
    exact ⟨t.world, out.2, rfl, player.sound picked, rfl⟩

/-- What an arbitrary peer does next: take a frame, or send one, or fail. -/
inductive Reply (C : Type) {K : Type} (Val : K → Type) where
  | loc (choice : C)
  | taken
  | frame (kind : K) (value : Val kind)
  | lost

/-- Picks answers for a program against an arbitrary peer. -/
def Player.solo [DecidableEq K] {sem : Sem E R (Tape (Event R Val) W)} (player : Player sem C) :
    Player (soloSem sem) (Reply C Val) where
  answer
    | .loc choice, t, .loc e => player.answer choice t e
    | .taken, t, .send k v => some (true, t.record (.send k v) true)
    | .lost, t, .send k v => some (false, t.record (.send k v) false)
    | .frame k' v, t, .recv k =>
        if same : k' = k then some (some (same ▸ v), t.record (.recv k) (some (same ▸ v))) else none
    | .lost, t, .recv k => some (none, t.record (.recv k) none)
    | _, _, _ => none
  sound := by
    intro choice t e r t' answer
    cases e with
    | loc e =>
        cases choice with
        | loc choice => exact player.sound answer
        | _ => cases answer
    | send k v =>
        cases choice with
        | taken => cases answer; rfl
        | lost => cases answer; rfl
        | _ => cases answer
    | recv k =>
        cases choice with
        | frame k' v =>
            simp only at answer
            split at answer
            · cases answer
              rfl
            · cases answer
        | lost => cases answer; rfl
        | _ => cases answer

/-- The frame a program is about to send. -/
def Prog.sending : Prog (Act E Val) (Act.Answer R) α → Option (Frame Val)
  | .call (.send k v) _ => some ⟨k, v⟩
  | _ => none

theorem Prog.eq_send {p : Prog (Act E Val) (Act.Answer R) α} {k : K} {v : Val k}
    (sending : p.sending = some ⟨k, v⟩) : ∃ next, p = .call (.send k v) next := by
  cases p with
  | ret a => cases sending
  | loop body x k => cases sending
  | call a next =>
      cases a with
      | send k' v' =>
          cases sending
          exact ⟨next, rfl⟩
      | loc e => cases sending
      | recv k' => cases sending

/-- The local call a program is about to make. -/
def Prog.calling : Prog (Act E Val) (Act.Answer R) α → Option E
  | .call (.loc e) _ => some e
  | _ => none

theorem Prog.eq_loc {p : Prog (Act E Val) (Act.Answer R) α} {e : E}
    (calling : p.calling = some e) : ∃ next, p = .call (.loc e) next := by
  cases p with
  | ret a => cases calling
  | loop body x k => cases calling
  | call a next =>
      cases a with
      | loc e' =>
          cases calling
          exact ⟨next, rfl⟩
      | send k v => cases calling
      | recv k => cases calling

end Scripts

end ProgramLogic
