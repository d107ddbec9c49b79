/-
Module: Filerail.Logic.Stream
Layer: Logic (general library)
Purpose: Two programs at the ends of a byte stream. The sending end hands over a chunk, and some front
  part of it is taken, at least one byte; the receiving end asks for a number of bytes and gets at
  least one and at most as many. `Link` runs the two against each other. Each end is verified on its
  own, the sender against a stream that takes what it is given and the receiver against a stream where
  all is there already, and `Link.delivers` puts the two together for every order of the steps.
Imports: Filerail.Logic.Program
Main exports: Flow, outSem, inSem, cutSem, Link, Link.Step, Link.Reach, Link.delivers, Link.ends
-/
import Filerail.Logic.Program

namespace ProgramLogic

open Prog

/-- The operations on a stream of `B`: hand over a chunk, or ask for up to `n` elements. -/
inductive Flow (B : Type) where
  | put (chunk : List B)
  | take (n : Nat)

/-- How many elements of the chunk were taken, or the elements that came; nothing is an error. -/
def Flow.Answer {B : Type} : Flow B → Type
  | .put _ => Option Nat
  | .take _ => Option (List B)

variable {B α β : Type}

/-- The sending end: a front part of the chunk goes to the end of the stream. -/
def outSem : Sem (Flow B) Flow.Answer (List B)
  | s, .put chunk, r, s' => ∃ n, 0 < n ∧ n ≤ chunk.length ∧ r = some n ∧ s' = s ++ chunk.take n
  | _, .take _, _, _ => False

/-- The receiving end: some elements come from the front of the stream. -/
def inSem : Sem (Flow B) Flow.Answer (List B)
  | s, .take n, r, s' => ∃ k, 0 < k ∧ k ≤ n ∧ k ≤ s.length ∧ r = some (s.take k) ∧ s' = s.drop k
  | _, .put _, _, _ => False

/-- The receiving end of a connection that can fail at any time, and at the end of the stream does:
    a receive then reports an error, or that the peer has closed. -/
def cutSem : Sem (Flow B) Flow.Answer (List B)
  | s, .take n, r, s' => inSem s (.take n) r s' ∨ (r = none ∨ r = some []) ∧ s' = s
  | _, .put _, _, _ => False

/-- What went before on the stream does not matter to the sender. -/
theorem outSem_front (front : List B) {s : List B} {e : Flow B} {r : e.Answer} {s' : List B}
    (answer : outSem s e r s') : outSem (front ++ s) e r (front ++ s') := by
  cases e with
  | put chunk =>
      obtain ⟨n, pos, inside, came, rfl⟩ := answer
      exact ⟨n, pos, inside, came, (List.append_assoc _ _ _).symm⟩
  | take n => exact answer.elim

/-- What comes later does not matter to the receiver. -/
theorem inSem_back (back : List B) {s : List B} {e : Flow B} {r : e.Answer} {s' : List B}
    (answer : inSem s e r s') : inSem (s ++ back) e r (s' ++ back) := by
  cases e with
  | put chunk => exact answer.elim
  | take n =>
      obtain ⟨k, pos, inside, there, rfl, rfl⟩ := answer
      have longer : k ≤ (s ++ back).length := by
        rw [List.length_append]
        exact Nat.le_add_right_of_le there
      refine ⟨k, pos, inside, longer, ?_, ?_⟩
      · rw [List.take_append_of_le_length there]
      · rw [List.drop_append_of_le_length there]

/-- A step of a sender only adds to the stream. -/
theorem step_out {p p' : Prog (Flow B) Flow.Answer α} {s s' : List B}
    (step : Prog.Step outSem (p, s) (p', s')) : ∃ x, s' = s ++ x := by
  cases step with
  | loop => exact ⟨[], (List.append_nil s).symm⟩
  | @call e k _ _ r answer =>
      cases e with
      | put chunk =>
          obtain ⟨n, _, _, _, rfl⟩ := answer
          exact ⟨_, rfl⟩
      | take n => exact answer.elim

/-- A step of a receiver only takes from it. -/
theorem step_in {q q' : Prog (Flow B) Flow.Answer β} {s s' : List B}
    (step : Prog.Step inSem (q, s) (q', s')) : ∃ x, s = x ++ s' := by
  cases step with
  | loop => exact ⟨[], rfl⟩
  | @call e k _ _ r answer =>
      cases e with
      | put chunk => exact answer.elim
      | take n =>
          obtain ⟨k, _, _, _, _, rfl⟩ := answer
          exact ⟨_, (List.take_append_drop k s).symm⟩

/-! ### The two ends together -/

/-- A sender, a receiver, and what is on its way. -/
structure Link (B α β : Type) where
  sender : Prog (Flow B) Flow.Answer α
  receiver : Prog (Flow B) Flow.Answer β
  pipe : List B

namespace Link

/-- One of the two moves. -/
inductive Step : Link B α β → Link B α β → Prop
  | send {p p' : Prog (Flow B) Flow.Answer α} {q : Prog (Flow B) Flow.Answer β} {s s' : List B}
      (step : Prog.Step outSem (p, s) (p', s')) : Step ⟨p, q, s⟩ ⟨p', q, s'⟩
  | recv {p : Prog (Flow B) Flow.Answer α} {q q' : Prog (Flow B) Flow.Answer β} {s s' : List B}
      (step : Prog.Step inSem (q, s) (q', s')) : Step ⟨p, q, s⟩ ⟨p, q', s'⟩

/-- The states a run can pass through. -/
abbrev Reach : Link B α β → Link B α β → Prop :=
  Relation.ReflTransGen Step

/-- The two ends before the first byte. -/
def start (p : Prog (Flow B) Flow.Answer α) (q : Prog (Flow B) Flow.Answer β) : Link B α β :=
  ⟨p, q, []⟩

variable {p₀ : Prog (Flow B) Flow.Answer α} {q₀ : Prog (Flow B) Flow.Answer β}

/-- Each end has made a run of its own: the sender one in which it put out all that was ever on its
    way, and the receiver one in which it found just that. -/
def Apart (p₀ : Prog (Flow B) Flow.Answer α) (q₀ : Prog (Flow B) Flow.Answer β) (c : Link B α β) :
    Prop :=
  ∃ taken, Prog.Reach outSem (p₀, []) (c.sender, taken ++ c.pipe) ∧
    Prog.Reach inSem (q₀, taken ++ c.pipe) (c.receiver, c.pipe)

theorem Apart.step {c c' : Link B α β} (apart : Apart p₀ q₀ c) (step : Step c c') :
    Apart p₀ q₀ c' := by
  obtain ⟨taken, out, came⟩ := apart
  cases step with
  | send step =>
      obtain ⟨x, rfl⟩ := step_out step
      refine ⟨taken, out.trans ?_, ?_⟩
      · exact reach_sem_map (fun s => taken ++ s) (fun _ _ _ _ => outSem_front taken) (.single step)
      · have later := reach_sem_map (fun s => s ++ x) (fun _ _ _ _ => inSem_back x) came
        rw [List.append_assoc] at later
        exact later
  | recv step =>
      obtain ⟨x, rfl⟩ := step_in step
      rw [← List.append_assoc] at out came
      exact ⟨taken ++ x, out, came.tail step⟩

theorem reach_apart {c : Link B α β} (run : Reach (start p₀ q₀) c) : Apart p₀ q₀ c := by
  induction run with
  | refl => exact ⟨[], .refl, .refl⟩
  | tail _ step ih => exact ih.step step

section Delivery

variable {stream : List B} {P : α → Prop} {Q : β → Prop}

/-- The sender puts out a front part of the stream, and when it returns all of it. -/
abbrev Puts (stream : List B) (P : α → Prop) (p : Prog (Flow B) Flow.Answer α) (s : List B) : Prop :=
  Wp outSem (fun s' _ => s' <+: stream) True p s (fun a s' => P a ∧ s' = stream)

/-- The receiver returns when it has found all of the stream. -/
abbrev Takes (Q : β → Prop) (q : Prog (Flow B) Flow.Answer β) (s : List B) : Prop :=
  Wp inSem (fun _ _ => True) True q s (fun b rest => Q b ∧ rest = [])

/-- What a sender has put out is a front part of the stream. -/
theorem front {p : Prog (Flow B) Flow.Answer α} {s : List B} (puts : Puts stream P p s) :
    s <+: stream := by
  have here := puts.sound _ _ .refl
  cases p with
  | ret a => exact here.2 ▸ List.prefix_rfl
  | call e k => exact here
  | loop body x k => exact here

/-- Both ends keep their specifications. -/
theorem delivers (puts : Puts stream P p₀ []) (takes : Takes Q q₀ stream) {c : Link B α β}
    (run : Reach (start p₀ q₀) c) :
    (∀ b, c.receiver = .ret b → Q b) ∧
      ((∀ c', ¬ Step c c') →
        (∃ a, c.sender = .ret a ∧ P a) ∧ (∃ b, c.receiver = .ret b ∧ Q b) ∧ c.pipe = []) := by
  obtain ⟨taken, out, came⟩ := reach_apart run
  obtain ⟨p, q, pipe⟩ := c
  have sending : Puts stream P p (taken ++ pipe) := puts.reach out
  obtain ⟨rest, whole⟩ := front sending
  have receiving : Takes Q q (pipe ++ rest) := by
    have later := reach_sem_map (fun s => s ++ rest) (fun _ _ _ _ => inSem_back rest) came
    rw [whole] at later
    exact takes.reach later
  refine ⟨?_, fun stuck => ?_⟩
  · intro b returned
    cases returned
    exact (wp_ret.mp receiving).1
  · -- the sender never waits, so it has returned
    rcases (sending.ends trivial).progress with ⟨a, returned⟩ | ⟨⟨p', s'⟩, step⟩
    · cases returned
      obtain ⟨good, all⟩ := wp_ret.mp sending
      rw [all] at whole
      cases List.append_right_eq_self.mp whole
      rw [List.append_nil] at receiving
      rcases (receiving.ends trivial).progress with ⟨b, returned⟩ | ⟨⟨q', s'⟩, step⟩
      · cases returned
        obtain ⟨fine, nothing⟩ := wp_ret.mp receiving
        exact ⟨⟨a, rfl, good⟩, ⟨b, rfl, fine⟩, nothing⟩
      · exact absurd (.recv step) (stuck _)
    · cases step with
      | loop => exact absurd (.send .loop) (stuck _)
      | @call e k _ _ r answer =>
          cases e with
          | put chunk =>
              obtain ⟨n, pos, inside, came, _⟩ := answer
              exact absurd (.send (.call ⟨n, pos, inside, came, rfl⟩)) (stuck _)
          | take n => exact answer.elim

/-- No run goes on forever: the induction is on the run of the sender, and inside it on that of the
    receiver, which sees from the start what the sender is still to put out. -/
theorem ends (puts : Puts stream P p₀ []) (takes : Takes Q q₀ stream) :
    Acc (fun c' c => Step c c') (start p₀ q₀) := by
  have both : ∀ out : Prog (Flow B) Flow.Answer α × List B,
      Acc (fun x' x => Prog.Step outSem x x') out → ∀ came : Prog (Flow B) Flow.Answer β × List B,
      Acc (fun x' x => Prog.Step inSem x x') came → ∀ p q taken pipe rest,
      out = (p, taken ++ pipe) → came = (q, pipe ++ rest) → taken ++ pipe ++ rest = stream →
      Puts stream P p (taken ++ pipe) → Acc (fun c' c => Step c c') ⟨p, q, pipe⟩ := by
    intro out sends
    induction sends with
    | intro out _ sends =>
        intro came takes
        induction takes with
        | intro came waits takes =>
            intro p q taken pipe rest out_is came_is whole puts
            cases out_is
            cases came_is
            refine .intro _ (fun c step => ?_)
            cases step with
            | @send _ p' _ _ _ step =>
                obtain ⟨x, rfl⟩ := step_out step
                have moved : Prog.Step outSem (p, taken ++ pipe) (p', taken ++ (pipe ++ x)) :=
                  step_sem_map (fun s => taken ++ s) (fun _ _ _ _ => outSem_front taken) step
                have puts' : Puts stream P p' (taken ++ (pipe ++ x)) := puts.reach (.single moved)
                obtain ⟨rest', whole'⟩ := front puts'
                have same : rest = x ++ rest' := by
                  rw [← whole] at whole'
                  simp only [List.append_assoc, List.append_cancel_left_eq] at whole'
                  exact whole'.symm
                refine sends _ moved _ (.intro _ waits) p' q taken (pipe ++ x) rest' rfl ?_ whole' puts'
                rw [same, List.append_assoc]
            | @recv _ _ q' _ s' step =>
                obtain ⟨x, rfl⟩ := step_in step
                have moved : Prog.Step inSem (q, x ++ s' ++ rest) (q', s' ++ rest) :=
                  step_sem_map (fun s => s ++ rest) (fun _ _ _ _ => inSem_back rest) step
                have same : taken ++ (x ++ s') = taken ++ x ++ s' := (List.append_assoc _ _ _).symm
                rw [same] at whole puts
                exact takes _ moved p q' (taken ++ x) s' rest (congrArg (Prod.mk p) same) rfl whole puts
  obtain ⟨rest, whole⟩ := front puts
  refine both _ (puts.ends trivial).acc _ (takes.ends trivial).acc p₀ q₀ [] [] rest rfl ?_ whole puts
  rw [List.nil_append] at whole
  rw [List.nil_append, whole]

end Delivery

end Link

end ProgramLogic
