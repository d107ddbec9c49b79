/-
Module: Filerail.Proofs.Transfer
Layer: Proofs
Purpose: What the two sides of a transfer say to each other, as an automaton. `Phase` is how far a
  transfer has come, `Terms` what the sender's frames and the receiver's offset may be. The automaton
  is the contract between the two handlers: each is verified against it alone. `Carries` places it
  inside a larger conversation, so that the same facts about the handlers serve the handlers on their
  own and the client and server that call them.
Imports: Filerail.Proofs.Local
Main exports: Phase, Terms, Phase.turn, Phase.allowed, Phase.next, transferProtocol, Carries,
  wp_transmit, wp_receive, chunk, pinned
-/
import Filerail.Proofs.Local

namespace Filerail

open FileStore ProgramLogic

/-- How far a transfer has come: the hash advertised, the offset agreed on, the position in the file
    and the bytes still to come. -/
inductive Phase where
  | hash
  | command (h : Hash)
  | answer (h : Hash)
  | offset (h : Hash)
  | header (h : Hash) (k : UInt64)
  | data (h : Hash) (pos : Nat) (rem : UInt64)
  | verdict (h : Hash)
  | done (h : Hash) (v : UInt8)

/-- What the frames of a transfer may carry. -/
structure Terms where
  hash : Hash → Prop
  offset : Hash → UInt64 → Prop
  size : Hash → UInt64 → UInt64 → Prop
  packet : Hash → Nat → UInt64 → DataPacket → Prop

namespace Phase

/-- Who sends the next frame. -/
def turn (sender : Side) : Phase → Option Side
  | .hash => some sender
  | .command _ => some sender.other
  | .answer _ => some sender
  | .offset _ => some sender.other
  | .header _ _ => some sender
  | .data _ _ _ => some sender
  | .verdict _ => some sender.other
  | .done _ _ => none

/-- Which frames may come next. -/
def allowed (terms : Terms) : Phase → Frame Schema.Val → Prop
  | .hash, ⟨.hash, h⟩ => terms.hash h
  | .command _, ⟨.code, c⟩ => c = Command.resume.code ∨ c = Command.restart.code
  | .answer _, ⟨.code, c⟩ => c = Response.ok.code ∨ c = Command.abort.code
  | .offset h, ⟨.offset, k⟩ => terms.offset h k
  | .header h k, ⟨.resource, r⟩ => terms.size h k r.resource_size
  | .data h pos rem, ⟨.packet, d⟩ => terms.packet h pos rem d
  | .verdict _, ⟨.code, c⟩ => c = Response.ok.code ∨ c = Response.noIntegrity.code
  | _, _ => False

/-- The data that is left is sent, or the verdict awaited. -/
def rest (h : Hash) (pos : Nat) (rem : UInt64) : Phase :=
  if rem = 0 then .verdict h else .data h pos rem

/-- Where a frame leads. -/
def next : Phase → Frame Schema.Val → Phase
  | .hash, ⟨.hash, h⟩ => .command h
  | .command h, ⟨.code, c⟩ => if c = Command.resume.code then .answer h else .header h 0
  | .answer h, ⟨.code, c⟩ => if c = Response.ok.code then .offset h else .header h 0
  | .offset h, ⟨.offset, k⟩ => .header h k
  | .header h k, ⟨.resource, r⟩ => rest h k.toNat (r.resource_size - k)
  | .data h pos rem, ⟨.packet, d⟩ => rest h (pos + d.data_size.toNat) (rem - d.data_size)
  | .verdict h, ⟨.code, c⟩ => .done h c
  | p, _ => p

theorem next_resume (h : Hash) :
    (command h).next ⟨.code, Command.resume.code⟩ = .answer h := rfl

theorem next_restart (h : Hash) :
    (command h).next ⟨.code, Command.restart.code⟩ = .header h 0 := rfl

theorem next_ok (h : Hash) : (answer h).next ⟨.code, Response.ok.code⟩ = .offset h := rfl

theorem next_abort (h : Hash) : (answer h).next ⟨.code, Command.abort.code⟩ = .header h 0 := rfl

theorem next_offset (h : Hash) (k : UInt64) : (offset h).next ⟨.offset, k⟩ = .header h k := rfl

theorem next_header (h : Hash) (k : UInt64) (r : ResourceHeader) :
    (header h k).next ⟨.resource, r⟩ = rest h k.toNat (r.resource_size - k) := rfl

theorem next_data (h : Hash) (pos : Nat) (rem : UInt64) (d : DataPacket) :
    (data h pos rem).next ⟨.packet, d⟩ =
      rest h (pos + d.data_size.toNat) (rem - d.data_size) := rfl

theorem next_verdict (h : Hash) (v : UInt8) : (verdict h).next ⟨.code, v⟩ = .done h v := rfl

/-- The layout of the frame that may come next. -/
def schema : Phase → Schema
  | .hash => .hash
  | .offset _ => .offset
  | .header _ _ => .resource
  | .data _ _ _ => .packet
  | _ => .code

theorem schema_of_allowed {terms : Terms} {p : Phase} {m : Frame Schema.Val}
    (h : p.allowed terms m) : m.1 = p.schema := by
  obtain ⟨k, v⟩ := m
  cases p <;> cases k <;> first | rfl | exact h.elim

theorem rest_of_ne {h : Hash} {pos : Nat} {rem : UInt64} (more : rem ≠ 0) :
    rest h pos rem = .data h pos rem := if_neg more

@[simp] theorem rest_zero (h : Hash) (pos : Nat) : rest h pos 0 = .verdict h := if_pos rfl

end Phase

/-- A transfer on its own. -/
def transferProtocol (sender : Side) (terms : Terms) : Protocol Phase Schema.Val where
  turn := Phase.turn sender
  allowed := Phase.allowed terms
  next := Phase.next

/-- A protocol that contains a transfer. -/
structure Carries {P' : Type} (proto : Protocol P' Schema.Val) (put : Phase → P') (sender : Side)
    (terms : Terms) : Prop where
  turn : ∀ p, proto.turn (put p) = p.turn sender
  allowed : ∀ p m, proto.allowed (put p) m ↔ p.allowed terms m
  next : ∀ p m, p.allowed terms m → proto.next (put p) m = put (p.next m)
  inj : Function.Injective put

theorem carries_transfer (sender : Side) (terms : Terms) :
    Carries (transferProtocol sender terms) id sender terms where
  turn _ := rfl
  allowed _ _ := Iff.rfl
  next _ _ _ := rfl
  inj := Function.injective_id

/-! ### Sending and receiving in a phase

The rules of the endpoint, for a side whose connection is up and that is inside the transfer. -/

section Rules

variable {lib : Lib} {P' α : Type} {proto : Protocol P' Schema.Val} {put : Phase → P'}
  {sender side : Side} {terms : Terms} {lossy total : Prop}
  {sem : Sem (Sys lib.md5.Ctx) Sys.Resp (SysTape lib)}
  {guard : Endpoint (SysTape lib) P' → Option (Act (Sys lib.md5.Ctx) Schema.Val) → Prop}

theorem wp_transmit (carries : Carries proto put sender terms) {p : Phase}
    (mine : p.turn sender = some side) {k : Schema} {v : k.Val} {f : Bool → P lib α}
    {t : SysTape lib} {post : α → Endpoint (SysTape lib) P' → Prop} (may : p.allowed terms ⟨k, v⟩)
    (here : Obeys (E := Sys lib.md5.Ctx) proto side ⟨t, put p, false⟩ (some (.send k v)) →
      guard ⟨t, put p, false⟩ (some (.send k v)))
    (sent : Wp (endpointSem proto side lossy sem) guard total (f true)
      ⟨t.record (.send k v) true, put (p.next ⟨k, v⟩), false⟩ post)
    (unsent : lossy → Wp (endpointSem proto side lossy sem) guard total (f false)
      ⟨t.record (.send k v) false, put p, true⟩ post) :
    Wp (endpointSem proto side lossy sem) guard total (Prog.bind (send k v) f)
      ⟨t, put p, false⟩ post := by
  have turn : proto.turn (put p) = some side := (carries.turn p).trans mine
  have allowed : proto.allowed (put p) ⟨k, v⟩ := (carries.allowed p _).mpr may
  apply wp_send
  · exact here (Or.inr ⟨turn, allowed⟩)
  · intro _
    exact Or.inr ⟨turn, allowed⟩
  · intro _ _ _
    rw [← carries.next p _ may] at sent
    exact sent
  · rintro (lost | broken)
    · exact unsent lost
    · cases broken

theorem wp_receive (carries : Carries proto put sender terms) {p : Phase}
    (theirs : p.turn sender = some side.other) {k : Schema} (kind : p.schema = k)
    {f : Option k.Val → P lib α} {t : SysTape lib}
    {post : α → Endpoint (SysTape lib) P' → Prop}
    (here : Obeys (E := Sys lib.md5.Ctx) proto side ⟨t, put p, false⟩ (some (.recv k)) →
      guard ⟨t, put p, false⟩ (some (.recv k)))
    (able : total → ∃ v, p.allowed terms ⟨k, v⟩)
    (received : ∀ v, p.allowed terms ⟨k, v⟩ →
      Wp (endpointSem proto side lossy sem) guard total (f (some v))
        ⟨t.record (.recv k) (some v), put (p.next ⟨k, v⟩), false⟩ post)
    (unreceived : lossy → Wp (endpointSem proto side lossy sem) guard total (f none)
      ⟨t.record (.recv k) none, put p, false⟩ post) :
    Wp (endpointSem proto side lossy sem) guard total (Prog.bind (recv k) f)
      ⟨t, put p, false⟩ post := by
  have turn : proto.turn (put p) = some side.other := (carries.turn p).trans theirs
  apply wp_recv
  · apply here
    refine Or.inr ⟨turn, fun m may => ?_⟩
    rw [← kind]
    exact Phase.schema_of_allowed ((carries.allowed p m).mp may)
  · intro ask
    obtain ⟨v, may⟩ := able ask
    exact Or.inr ⟨turn, v, (carries.allowed p _).mpr may⟩
  · intro v _ allowed
    have may := (carries.allowed p _).mp allowed
    have next := received v may
    rw [← carries.next p _ may] at next
    exact next
  · exact unreceived

/-- What either handler keeps to: the protocol, never the branch the code labels as a violation of it,
    and a loop variable that agrees with the bytes the protocol still expects. -/
def Conforms (proto : Protocol P' Schema.Val) (put : Phase → P') (side : Side)
    (s : Endpoint (SysTape lib) P') (a : Option (Act (Sys lib.md5.Ctx) Schema.Val)) : Prop :=
  Obeys proto side s a ∧
    match a with
    | some (.loc .protocolNotFollowed) => False
    | some (.loc (.remaining n)) => ∃ h pos, s.pos = put (Phase.rest h pos n)
    | _ => True

/-- Neither of the two calls the handlers are watched at. -/
def Unwatched : Option (Sys lib.md5.Ctx) → Prop
  | some .protocolNotFollowed => False
  | some (.remaining _) => False
  | _ => True

theorem Peeks.unwatched {e : Option (Sys lib.md5.Ctx)} (peeks : Peeks e) : Unwatched e := by
  cases e with
  | none => trivial
  | some e => cases e <;> trivial

theorem conforms_loc {p : P'} {b : Bool} {t : SysTape lib} {e : Option (Sys lib.md5.Ctx)}
    (unwatched : Unwatched e) : Conforms proto put side ⟨t, p, b⟩ (e.map .loc) := by
  cases e with
  | none => exact ⟨trivial, trivial⟩
  | some e =>
      refine ⟨trivial, ?_⟩
      cases e <;> trivial

theorem conforms_call {p : P'} {b : Bool} {t : SysTape lib} {e : Sys lib.md5.Ctx}
    (unwatched : Unwatched (some e)) : Conforms proto put side ⟨t, p, b⟩ (some (.loc e)) :=
  conforms_loc (e := some e) unwatched

theorem conforms_send {p : P'} {b : Bool} {t : SysTape lib} {k : Schema} {v : k.Val}
    (obeys : Obeys (E := Sys lib.md5.Ctx) proto side ⟨t, p, b⟩ (some (.send k v))) :
    Conforms proto put side ⟨t, p, b⟩ (some (.send k v)) :=
  ⟨obeys, trivial⟩

theorem conforms_recv {p : P'} {b : Bool} {t : SysTape lib} {k : Schema}
    (obeys : Obeys (E := Sys lib.md5.Ctx) proto side ⟨t, p, b⟩ (some (.recv k))) :
    Conforms proto put side ⟨t, p, b⟩ (some (.recv k)) :=
  ⟨obeys, trivial⟩

end Rules

/-! ### The transfer of one file -/

/-- The bytes of `F` that one packet carries: from `pos` on, as many as fit and as are left. -/
def chunk (F : List UInt8) (pos : Nat) (rem : UInt64) : List UInt8 :=
  (F.drop pos).take (min BUFFER_SIZE rem.toNat)

theorem length_chunk (F : List UInt8) (pos : Nat) (rem : UInt64) :
    (chunk F pos rem).length = min (min BUFFER_SIZE rem.toNat) (F.length - pos) := by
  rw [chunk, List.length_take, List.length_drop]

theorem length_chunk_le (F : List UInt8) (pos : Nat) (rem : UInt64) :
    (chunk F pos rem).length ≤ BUFFER_SIZE := by
  rw [length_chunk]
  omega

theorem chunk_eq_take (F : List UInt8) (pos : Nat) (rem : UInt64) :
    chunk F pos rem = (F.drop pos).take (chunk F pos rem).length :=
  List.prefix_iff_eq_take.mp (List.take_prefix _ _)

theorem toNat_length_chunk (F : List UInt8) (pos : Nat) (rem : UInt64) :
    (UInt64.ofNat (chunk F pos rem).length).toNat = (chunk F pos rem).length := by
  have bound := length_chunk_le F pos rem
  have size : BUFFER_SIZE = 1024 := rfl
  rw [UInt64.toNat_ofNat', Nat.mod_eq_of_lt]
  omega

/-- A packet that carries the chunk, encrypted with the keys. -/
def IsPacket (lib : Lib) (K : AESKeys) (F : List UInt8) (pos : Nat) (rem : UInt64)
    (d : DataPacket) : Prop :=
  d.data_size = .ofNat (chunk F pos rem).length ∧
    ∃ out, decrypt lib d.data_payload K = some out ∧
      out.toList.take (chunk F pos rem).length = chunk F pos rem

/-- The transfer of the file `F`. -/
def pinned (lib : Lib) (K : AESKeys) (F : List UInt8) (offsets : UInt64 → Prop) : Terms where
  hash h := h = lib.md5.digest F
  offset _ k := offsets k
  size _ _ n := n = .ofNat F.length
  packet _ pos rem d := IsPacket lib K F pos rem d

/-- The packet the sender makes of the chunk. -/
theorem isPacket_encrypted {lib : Lib} {K : AESKeys} {F : List UInt8} {pos : Nat} {rem : UInt64}
    {out : Buffer} (h : encrypt lib (pad BUFFER_SIZE (chunk F pos rem)) K = some out) :
    IsPacket lib K F pos rem ⟨out, .ofNat (chunk F pos rem).length⟩ := by
  refine ⟨rfl, _, decrypt_encrypt h, ?_⟩
  rw [take_pad (length_chunk_le F pos rem) (Nat.le_refl _), List.take_length]

/-- There is always a packet to carry the chunk. -/
theorem exists_packet (lib : Lib) (K : AESKeys) (F : List UInt8) (pos : Nat) (rem : UInt64) :
    ∃ d, IsPacket lib K F pos rem d := by
  obtain ⟨out, h⟩ : ∃ out, encrypt lib (pad BUFFER_SIZE (chunk F pos rem)) K = some out :=
    encrypt_isSome _ K
  exact ⟨_, isPacket_encrypted h⟩

end Filerail
