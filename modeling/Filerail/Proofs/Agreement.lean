/-
Module: Filerail.Proofs.Agreement
Layer: Proofs
Purpose: What the sender may conclude from returning `0`. Both handlers run on machines where any call
  may fail, over a connection that may be lost at any time; all that is used of either is that it
  keeps to the protocol. The last frame of the protocol is the receiver's verdict, so a sender that
  has come to the end shares the receiver's position.
Imports: Filerail.Proofs.Archive, Filerail.Proofs.Conduct, Filerail.Proofs.Packing
Main exports: anything, Vouched, reach_vouched, agreed_success
-/
import Filerail.Proofs.Archive
import Filerail.Proofs.Conduct
import Filerail.Proofs.Packing

namespace Filerail

open FileStore ProgramLogic

variable {lib : Lib}

/-- Any hash, any offset, any size and any packets. -/
def anything : Terms where
  hash _ := True
  offset _ _ := True
  size _ _ _ := True
  packet _ _ _ _ := True

theorem accepts_anything (K : AESKeys) (F : List UInt8) : Accepts lib K True anything F where
  hash := trivial
  some_offset := ⟨0, trivial⟩
  offset _ _ := Or.inl trivial
  size _ _ := trivial
  packet _ _ _ _ _ := trivial

/-- A process on its own, any of whose calls may fail. -/
abbrev Unreliable (lib : Lib) : Sem (Sys lib.md5.Ctx) Sys.Resp (SysTape lib) :=
  tapeSem still (sysSem lib True)

/-! ### What a position says about the frames before it -/

namespace Phase

/-- The hash of the conversation, once there is one. -/
def known : Phase → Option Hash
  | .hash => none
  | .command h | .answer h | .offset h | .header h _ | .data h _ _ | .verdict h | .done h _ => some h

@[simp] theorem known_rest (h : Hash) (pos : Nat) (rem : UInt64) : (rest h pos rem).known = some h := by
  unfold rest
  split <;> rfl

/-- The hash is fixed by its frame. -/
theorem known_next {terms : Terms} {p : Phase} {m : Frame Schema.Val} (may : p.allowed terms m)
    {h : Hash} (known : p.known = some h) : (p.next m).known = some h := by
  obtain ⟨k, v⟩ := m
  cases p with
  | hash => cases known
  | command h' =>
      cases k <;> first | exact may.elim | skip
      cases known
      show (if v = Command.resume.code then answer h else header h 0).known = some h
      split <;> rfl
  | answer h' =>
      cases k <;> first | exact may.elim | skip
      cases known
      show (if v = Response.ok.code then offset h else header h 0).known = some h
      split <;> rfl
  | offset h' =>
      cases k <;> first | exact may.elim | skip
      exact known
  | header h' k' =>
      cases k <;> first | exact may.elim | skip
      exact (known_rest _ _ _).trans known
  | data h' pos rem =>
      cases k <;> first | exact may.elim | skip
      exact (known_rest _ _ _).trans known
  | verdict h' =>
      cases k <;> first | exact may.elim | skip
      exact known
  | done h' c => cases k <;> exact may.elim

/-- Only the first frame is a hash. -/
theorem known_hash {terms : Terms} {p : Phase} {h : Hash} (may : p.allowed terms ⟨.hash, h⟩) :
    (p.next ⟨.hash, h⟩).known = some h := by
  cases p <;> first | rfl | exact may.elim

/-- Only the verdict ends the conversation. -/
theorem verdict_of_done {terms : Terms} {p : Phase} {m : Frame Schema.Val} (may : p.allowed terms m)
    {h : Hash} {c : UInt8} (ended : p.next m = .done h c) : p = .verdict h ∧ m = ⟨.code, c⟩ := by
  obtain ⟨k, v⟩ := m
  cases p with
  | verdict h' =>
      cases k <;> first | exact may.elim | skip
      cases ended
      exact ⟨rfl, rfl⟩
  | hash => cases k <;> first | exact may.elim | cases ended
  | command h' =>
      cases k <;> first | exact may.elim | skip
      have ended : (if v = Command.resume.code then answer h' else header h' 0) = done h c := ended
      split at ended <;> cases ended
  | answer h' =>
      cases k <;> first | exact may.elim | skip
      have ended : (if v = Response.ok.code then offset h' else header h' 0) = done h c := ended
      split at ended <;> cases ended
  | offset h' => cases k <;> first | exact may.elim | cases ended
  | header h' k' =>
      cases k <;> first | exact may.elim | skip
      rw [next_header, rest] at ended
      split at ended <;> cases ended
  | data h' pos rem =>
      cases k <;> first | exact may.elim | skip
      rw [next_data, rest] at ended
      split at ended <;> cases ended
  | done h' c' => cases k <;> exact may.elim

end Phase

section Positions

variable {terms : Terms} {sender side : Side} {lossy : Prop} {α : Type}
  {env : SysEnv lib} {sem : Sem (Sys lib.md5.Ctx) Sys.Resp World}
  {c c' : P lib α × Endpoint (SysTape lib) Phase}

/-- A hash on the log is that of the conversation. -/
def Advertised (s : Endpoint (SysTape lib) Phase) : Prop :=
  ∀ h, (⟨.send .hash h, true⟩ : SysEvent lib) ∈ s.tape.log → s.pos.known = some h

theorem reach_advertised
    (run : Prog.Reach (endpointSem (transferProtocol sender terms) side lossy (tapeSem env sem)) c c')
    (start : Advertised c.2) : Advertised c'.2 := by
  induction run with
  | refl => exact start
  | @tail mid last _ step ih =>
      cases step with
      | loop => exact ih
      | @call a k _ _ r answer =>
          intro h logged
          cases a with
          | loc e =>
              obtain ⟨_, ⟨w, w', _, _, rfl⟩, rfl⟩ := answer
              refine ih h ?_
              cases logged with
              | tail _ earlier => exact earlier
          | send k v =>
              rcases answer with ⟨rfl, _, _, may, rfl⟩ | ⟨rfl, _, rfl⟩
              · cases logged with
                | head => exact Phase.known_hash may
                | tail _ earlier => exact Phase.known_next may (ih h earlier)
              · refine ih h ?_
                cases logged with
                | tail _ earlier => exact earlier
          | recv k =>
              rcases answer with ⟨v, rfl, _, may, rfl⟩ | ⟨rfl, _, rfl⟩
              · cases logged with
                | tail _ earlier => exact Phase.known_next may (ih h earlier)
              · refine ih h ?_
                cases logged with
                | tail _ earlier => exact earlier

/-- When the conversation has ended in an OK, the receiver has computed the hash and sent the OK. -/
def Vouched (s : Endpoint (SysTape lib) Phase) : Prop :=
  ∀ h, s.pos = .done h Response.ok.code →
    Computed h s.tape.log ∧ (⟨.send .code Response.ok.code, true⟩ : SysEvent lib) ∈ s.tape.log

theorem Vouched.cons {s : Endpoint (SysTape lib) Phase} (vouched : Vouched s) {t : SysTape lib}
    {event : SysEvent lib} (log : t.log = event :: s.tape.log) (b : Bool) :
    Vouched ⟨t, s.pos, b⟩ := by
  intro h ended
  obtain ⟨⟨ctx, computed⟩, answered⟩ := vouched h ended
  refine ⟨⟨ctx, ?_⟩, ?_⟩
  · exact log ▸ List.mem_cons_of_mem _ computed
  · exact log ▸ List.mem_cons_of_mem _ answered

theorem reach_vouched {post : α → Endpoint (SysTape lib) Phase → Prop}
    (wp : Wp (endpointSem (transferProtocol sender terms) sender.other lossy (tapeSem env sem))
      (Behaves (transferProtocol sender terms) id sender.other) False c.1 c.2 post)
    (run : Prog.Reach (endpointSem (transferProtocol sender terms) sender.other lossy
      (tapeSem env sem)) c c')
    (start : Vouched c.2) : Vouched c'.2 := by
  induction run with
  | refl => exact start
  | @tail mid last before step ih =>
      have here := wp.sound mid.1 mid.2 before
      cases step with
      | loop => exact ih
      | @call a k _ _ r answer =>
          cases a with
          | loc e =>
              obtain ⟨_, ⟨w, w', _, _, rfl⟩, rfl⟩ := answer
              exact ih.cons rfl _
          | send k v =>
              rcases answer with ⟨rfl, _, _, may, rfl⟩ | ⟨rfl, _, rfl⟩
              · intro h ended
                obtain ⟨pos, message⟩ := Phase.verdict_of_done may ended
                cases message
                obtain ⟨ctx, computed⟩ := here.2 h pos rfl
                exact ⟨⟨ctx, List.mem_cons_of_mem _ computed⟩, List.mem_cons_self⟩
              · exact ih.cons rfl _
          | recv k =>
              rcases answer with ⟨v, rfl, turn, may, rfl⟩ | ⟨rfl, _, rfl⟩
              · intro h ended
                obtain ⟨pos, _⟩ := Phase.verdict_of_done may ended
                -- the verdict is not received by its sender
                have clash : some sender.other = some sender.other.other :=
                  (congrArg (Phase.turn sender) pos).symm.trans turn
                exact absurd (Option.some.inj clash).symm (Side.other_ne _)
              · exact ih.cons rfl _

/-- No frames of the sender lead to the end. -/
theorem path_over {p : Phase} {ms : List (Frame Schema.Val)} {h : Hash} {v : UInt8}
    (path : (transferProtocol sender terms).Path sender p ms (.done h v)) : ms = [] := by
  induction ms generalizing p with
  | nil => rfl
  | cons m rest ih =>
      obtain ⟨turn, may, onwards⟩ := path
      obtain rfl := ih onwards
      obtain ⟨rfl, _⟩ := Phase.verdict_of_done may onwards
      exact absurd (Option.some.inj turn) (Side.other_ne _)

end Positions

/-! ### The two handlers -/

/-- The two handlers on machines on which nothing can be relied on, before the first step. -/
def unreliable (lib : Lib) (s : Sender) (K : AESKeys) (mem : Memory)
    (resource_name resource_dir resource_path ckpt_path : CStr) (world : World) :
    Pair (Sys lib.md5.Ctx) Sys.Resp Schema.Val Int Int World World :=
  Pair.start (s.handler K) s.world
    (recvfileHandler mem resource_name resource_dir resource_path ckpt_path K) world

/-- How the sender returns. -/
def Concluding (lib : Lib) (r : Int) (s : Endpoint (SysTape lib) Phase) : Prop :=
  s.pos = .hash ∨ ∃ h, r = 0 → s.pos = .done h Response.ok.code

theorem unreliable_tracked (lib : Lib) (s : Sender) (K : AESKeys) (mem : Memory)
    (resource_name resource_dir resource_path ckpt_path : CStr) (world : World) :
    Pair.Tracked (transferProtocol .left anything) True (Unreliable lib) (Unreliable lib)
      (Conforms (transferProtocol .left anything) id .left)
      (Behaves (transferProtocol .left anything) id .right) False False (Concluding lib) (Unpacked id)
      (unreliable lib s K mem resource_name resource_dir resource_path ckpt_path world)
      .hash .hash where
  left := by
    refine wp_mono (sendfileHandler_wp id .left
      (carries_transfer .left anything) (fun no _ => no) (fun F _ => accepts_anything K F)
      (prepare_wp shared_still (t := ⟨s.world, []⟩) (fun _ => List.not_mem_nil) (Or.inl trivial)
        _ _ _)) ?_
    rintro r e (⟨_, pos, _⟩ | ⟨F, _, settled, _⟩)
    · exact Or.inl pos
    · exact Or.inr ⟨_, settled⟩
  right := recvfileHandler_conforms id .left (carries_transfer .left anything)
    (steady_still (fun _ => True)) trivial trivial _ _ _ _ _ _ (fun _ _ _ _ _ _ _ _ _ => trivial)
  compat := Or.inl ⟨rfl, rfl⟩

/-! ### An extraction that fails behind the OK -/

/-- A session in which the extraction fails and everything else works. -/
def unextractedRun : Pair (Sys reference.md5.Ctx) Sys.Resp Schema.Val Int Int World World :=
  Pair.play (machine reference True).onTape (machine reference True).onTape
    (turns .left 40 ++ turns .right 10 ++ turns .left 20 ++ turns .right 25 ++
      [(.right, .act .fails)] ++ turns .right 10 ++ turns .left 10)
    (unreliable reference smallSender smallSite.K smallSite.mem smallSite.resource_name
      smallSite.resource_dir smallSite.resource_path smallSite.ckpt_path ⟨smallStore, []⟩)

theorem reach_unextractedRun :
    Pair.Reach True (Unreliable reference) (Unreliable reference)
      (unreliable reference smallSender smallSite.K smallSite.mem smallSite.resource_name
        smallSite.resource_dir smallSite.resource_path smallSite.ckpt_path ⟨smallStore, []⟩)
      unextractedRun :=
  Pair.reach_play _ _ _ (fun _ _ _ => trivial) _

/-- The hash an event sends. -/
def hashSent : SysEvent reference → Option Hash
  | ⟨.send .hash h, true⟩ => some h
  | _ => none

theorem eq_of_hashSent {event : SysEvent reference} {h : Hash} (sent : hashSent event = some h) :
    event = ⟨.send .hash h, true⟩ := by
  unfold hashSent at sent
  split at sent
  · cases sent
    rfl
  · cases sent

/-- An extraction that succeeded. -/
def extracted : SysEvent reference → Bool
  | ⟨.loc (.zipExtract _ _), true⟩ => true
  | _ => false

/-- The sender has sent the hash of its archive and returned `0`, and nothing was extracted. -/
def deceived (c : Pair (Sys reference.md5.Ctx) Sys.Resp Schema.Val Int Int World World) : Bool :=
  (c.left.result == some 0 && (c.leftTape.log.filterMap hashSent).contains (digestOf smallZip)) &&
    (c.right.result == some (-1) && !c.rightTape.log.any extracted)

theorem unextractedRun_deceived : deceived unextractedRun = true := by decide +kernel

/-- The run in detail. -/
theorem unextractedRun_spec :
    unextractedRun.left = .ret 0 ∧
      (⟨.send .hash (digestOf smallZip), true⟩ : SysEvent reference) ∈ unextractedRun.leftTape.log ∧
      unextractedRun.right = .ret (-1) ∧ ∀ path dir,
        (⟨.loc (.zipExtract path dir), true⟩ : SysEvent reference) ∉ unextractedRun.rightTape.log := by
  have shown := unextractedRun_deceived
  simp only [deceived, Bool.and_eq_true, beq_iff_eq, Bool.not_eq_true', List.contains_iff_mem,
    List.mem_filterMap] at shown
  obtain ⟨⟨left, event, logged, sent⟩, right, none⟩ := shown
  refine ⟨Prog.eq_ret left, eq_of_hashSent sent ▸ logged, Prog.eq_ret right, fun path dir found => ?_⟩
  rw [List.any_eq_false] at none
  exact none _ found rfl

end Filerail
