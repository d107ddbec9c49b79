/-
Module: Filerail.Proofs.Wire
Layer: Proofs
Purpose: Messages survive the wire. What each of the six functions serializes is what the function of
  the same kind deserializes; `filerail_send` puts out all it is given and `filerail_recv` gets all it
  asks for, however the stream is cut into pieces; and so a sequence of messages of mixed kinds arrives
  as it was sent, with nothing left on the stream. A connection that fails in between loses messages,
  but makes up none.
Imports: Filerail.Core.Wire
Main exports: frameOf, framesOf, Message.deserialize_serialized, wire_round_trip,
  cut_stream_tells_no_lies
-/
import Filerail.Core.Wire

namespace Filerail

open ProgramLogic Messagepack

/-! ### Serializing and deserializing -/

theorem viaU64_byte (union : Union) (d : UInt8) :
    (viaU64 union (.positiveInteger d.toUInt64)).toUInt8 = d := by
  simp [viaU64]

/-- A loop that reads the elements of a vector reads the vector. -/
theorem readEach_get {α : Type} {n : Nat} {read : Nat → Option α} {v : List.Vector α n}
    (each : ∀ i, i < n → read i = v.toList[i]?) : readEach n read = some v := by
  induction n generalizing read with
  | zero => rw [readEach, List.Vector.eq_nil v]
  | succ n ih =>
      obtain ⟨first, rest, rfl⟩ := v.exists_eq_cons
      have here : read 0 = some first := each 0 (Nat.succ_pos n)
      have others : readEach n (fun i => read (i + 1)) = some rest :=
        ih (fun i below => each (i + 1) (Nat.succ_lt_succ below))
      rw [readEach, here, Option.bind_some, others, Option.map_some]

/-- An element of an array of bytes, as the loops read it. -/
theorem byteAt (union : Union) (bytes : List UInt8) (i : Nat) :
    (viaArray (.array (bytes.map (fun d => .positiveInteger d.toUInt64))) i).map
      (fun o => (viaU64 union o).toUInt8) = bytes[i]? := by
  rw [viaArray, List.getElem?_map, Option.map_map]
  have same : (fun o => (viaU64 union o).toUInt8) ∘
      (fun d : UInt8 => Obj.positiveInteger d.toUInt64) = id := by
    funext d
    exact viaU64_byte union d
  rw [same, Option.map_id_fun, id]

/-- Bytes that are packed one by one. -/
theorem packs_bytes (bytes : List UInt8) :
    List.Forall₂ (Packs 1) (bytes.map packUint8)
      (bytes.map (fun d => Obj.positiveInteger d.toUInt64)) := by
  induction bytes with
  | nil => exact .nil
  | cons d rest ih => exact .cons (packs_uint8 d) ih

theorem length_packUint8 (d : UInt8) : 0 < (packUint8 d).length ∧ (packUint8 d).length ≤ 2 := by
  rw [packUint8]
  split
  · exact ⟨Nat.one_pos, Nat.le_succ 1⟩
  · exact ⟨Nat.two_pos, Nat.le_refl 2⟩

theorem length_packUint64 (d : UInt64) : 0 < (packUint64 d).length ∧ (packUint64 d).length ≤ 9 := by
  rw [packUint64]
  repeat' split
  all_goals simp

theorem length_packBytes (bytes : List UInt8) :
    bytes.length ≤ (packBytes bytes).length ∧ (packBytes bytes).length ≤ 2 * bytes.length := by
  induction bytes with
  | nil => exact ⟨Nat.le_refl 0, Nat.le_refl 0⟩
  | cons d rest ih =>
      have one := length_packUint8 d
      have split_off : packBytes (d :: rest) = packUint8 d ++ packBytes rest := rfl
      rw [split_off, List.length_append, List.length_cons]
      omega

section RoundTrips

variable (union : Union)

theorem deserialize_packed {T : Type} {read : Obj → Option T} {buf : List UInt8} {root : Obj}
    {value : T} {fuel : Nat} (packs : Packs fuel buf root) (enough : fuel ≤ 2 * buf.length + 2)
    (reads : read root = some value) :
    deserialize Messagepack.unpack read buf = .accepts value := by
  rw [deserialize, packs.unpack enough]
  simp only [reads]

theorem responseHeader_back (type : UInt8) :
    deserializeResponseHeader Messagepack.unpack union (serializeResponseHeader type) =
      .accepts type :=
  deserialize_packed (packs_uint8 type) (by omega) (congrArg some (viaU64_byte union type))

theorem commandHeader_back (type : UInt8) :
    deserializeCommandHeader Messagepack.unpack union (serializeCommandHeader type) =
      .accepts type :=
  deserialize_packed (packs_uint8 type) (by omega) (congrArg some (viaU64_byte union type))

theorem fileOffset_back (offset : UInt64) :
    deserializeFileOffset Messagepack.unpack union (serializeFileOffset offset) =
      .accepts offset :=
  deserialize_packed (packs_uint64 offset) (by omega) rfl

theorem viaStr_toList {n : Nat} (v : List.Vector UInt8 n) : viaStr n (.str v.toList) = some v := by
  have fills : n ≤ v.toList.length := v.toList_length.ge
  rw [viaStr, if_pos fills]
  congr 1
  apply List.Vector.eq
  show (v.toList ++ List.replicate n 0).take n = v.toList
  exact List.take_left' v.toList_length

theorem packs_resourceHeader (h : ResourceHeader) :
    Packs (1 + NUM_ATTRS_FOR_RESOURCE_HEADER + 1) (serializeResourceHeader h)
      (.array [.positiveInteger h.resource_size, .str h.resource_name.toList,
        .str h.resource_dir.toList]) := by
  have name := packs_str h.resource_name.toList_length (by decide)
  have dir := packs_str h.resource_dir.toList_length (by decide)
  have fields := packs_array (.cons (packs_uint64 h.resource_size) (.cons name (.cons dir .nil)))
    (n := NUM_ATTRS_FOR_RESOURCE_HEADER) rfl (by decide)
  simpa [serializeResourceHeader, NUM_ATTRS_FOR_RESOURCE_HEADER] using fields

theorem resourceHeader_back (h : ResourceHeader) :
    deserializeResourceHeader Messagepack.unpack union (serializeResourceHeader h) =
      .accepts h := by
  apply deserialize_packed (packs_resourceHeader h)
  · have long : h.resource_name.toList.length = 256 := h.resource_name.toList_length
    simp only [serializeResourceHeader, NUM_ATTRS_FOR_RESOURCE_HEADER, List.length_append]
    omega
  · simp [readResourceHeader, viaArray, viaStr_toList, viaU64]

theorem resourceHash_back (hash : Hash) :
    deserializeResourceHash Messagepack.unpack union (serializeResourceHash hash) =
      .accepts hash := by
  have count : (hash.toList.map (fun d => Obj.positiveInteger d.toUInt64)).length =
      MD5_HASH_LENGTH := by
    rw [List.length_map, List.Vector.toList_length]
  apply deserialize_packed (packs_array (packs_bytes hash.toList) count (by decide))
  · have long := (length_packBytes hash.toList).1
    rw [List.Vector.toList_length] at long
    simp only [MD5_HASH_LENGTH, packBytes] at long
    simp only [MD5_HASH_LENGTH, List.length_append]
    omega
  · exact readEach_get (fun i _ => byteAt union hash.toList i)

theorem packs_dataPacket (p : DataPacket) :
    Packs (1 + BUFFER_SIZE + 1 + NUM_ATTRS_FOR_DATA_PACKET + 1) (serializeDataPacket p)
      (.array [.array (p.data_payload.toList.map (fun d => Obj.positiveInteger d.toUInt64)),
        .positiveInteger p.data_size]) := by
  have count : (p.data_payload.toList.map (fun d => Obj.positiveInteger d.toUInt64)).length =
      BUFFER_SIZE := by
    rw [List.length_map, List.Vector.toList_length]
  have payload := packs_array (packs_bytes p.data_payload.toList) count (by decide)
  have size : Packs (1 + BUFFER_SIZE + 1) (packUint64 p.data_size) (.positiveInteger p.data_size) :=
    (packs_uint64 p.data_size).mono (by omega)
  have fields := packs_array (.cons payload (.cons size .nil)) (n := NUM_ATTRS_FOR_DATA_PACKET) rfl
    (by decide)
  simpa [serializeDataPacket, packBytes] using fields

theorem dataPacket_back (p : DataPacket) :
    deserializeDataPacket Messagepack.unpack union (serializeDataPacket p) = .accepts p := by
  apply deserialize_packed (packs_dataPacket p)
  · have long := (length_packBytes p.data_payload.toList).1
    rw [List.Vector.toList_length] at long
    simp only [BUFFER_SIZE] at long
    simp only [serializeDataPacket, BUFFER_SIZE, NUM_ATTRS_FOR_DATA_PACKET, List.length_append]
    omega
  · have payload := readEach_get (v := p.data_payload)
      (fun i _ => byteAt union p.data_payload.toList i)
    simp only [readDataPacket, viaArray, List.getElem?_cons_zero, Option.bind_some]
    simp only [viaArray] at payload
    rw [payload]
    rfl

end RoundTrips

/-! ### The loops -/

section Loops

variable {stream : List UInt8}

/-- While a function runs, what it has put out is a front part of the stream. -/
abbrev Sends (stream : List UInt8) {α : Type} (p : W α) (s : List UInt8)
    (post : α → List UInt8 → Prop) : Prop :=
  Wp outSem (fun s' _ => s' <+: stream) True p s post

/-- A function that receives, when all it asks for is there. -/
abbrev Receives {α : Type} (p : W α) (s : List UInt8) (post : α → List UInt8 → Prop) : Prop :=
  Wp inSem (fun _ _ => True) True p s post

theorem send_wp {buffer s : List UInt8} (room : s ++ buffer <+: stream) :
    Sends stream (Wire.send buffer buffer.length) s (fun r s' => r = 0 ∧ s' = s ++ buffer) := by
  have front : ∀ cur, s ++ buffer.take cur <+: stream := fun cur =>
    (List.prefix_append_right_inj s |>.mpr (List.take_prefix cur buffer)).trans room
  refine wp_iterate
    (fun st s' => st.1 + st.2 = buffer.length ∧ s' = s ++ buffer.take st.2) (fun st _ => st.1)
    ⟨Nat.add_zero _, by simp⟩ ?_ ?_
  · rintro st s' ⟨_, rfl⟩
    exact front st.2
  · rintro ⟨len, cur⟩ s' ⟨all, rfl⟩
    dsimp only at all
    unfold Wire.sendRound
    simp only [Prog.bind_eq, Prog.pure_eq]
    split
    · rename_i done
      have whole : buffer.take cur = buffer := List.take_of_length_le (by omega)
      exact wp_ret.mpr ⟨rfl, by rw [whole]⟩
    · rename_i more
      have size : ((buffer.drop cur).take len).length = len := by
        rw [List.length_take, List.length_drop]
        omega
      apply wp_perform_bind.mpr
      refine ⟨front cur, fun _ => ⟨some len, _, len, by omega, size.ge, rfl, rfl⟩, ?_⟩
      rintro r s'' ⟨n, pos, inside, rfl, rfl⟩
      rw [size] at inside
      obtain ⟨m, rfl⟩ := Nat.exists_eq_succ_of_ne_zero pos.ne'
      apply wp_ret.mpr
      refine ⟨⟨?_, ?_⟩, fun _ => ?_⟩
      · dsimp only
        omega
      · dsimp only
        rw [List.take_take, Nat.min_eq_left inside, List.append_assoc, List.take_add]
      · dsimp only
        omega

theorem recv_wp (front rest : List UInt8) :
    Receives (Wire.recv front.length) (front ++ rest) (fun r s' => r = some front ∧ s' = rest) := by
  refine wp_iterate
    (fun st s' => ∃ y, st.2 ++ y = front ∧ st.1 = y.length ∧ s' = y ++ rest) (fun st _ => st.1)
    ⟨front, rfl, rfl, rfl⟩ (fun _ _ _ => trivial) ?_
  rintro ⟨len, buffer⟩ s' ⟨y, whole, size, rfl⟩
  dsimp only at whole size
  subst size
  unfold Wire.recvRound
  simp only [Prog.bind_eq, Prog.pure_eq]
  split
  · rename_i done
    cases List.length_eq_zero_iff.mp done
    rw [List.append_nil] at whole
    exact wp_ret.mpr ⟨congrArg some whole, rfl⟩
  · rename_i more
    have there : y.length ≤ (y ++ rest).length := by
      rw [List.length_append]
      exact Nat.le_add_right _ _
    apply wp_perform_bind.mpr
    refine ⟨trivial, fun _ => ⟨_, _, y.length, by omega, Nat.le_refl _, there, rfl, rfl⟩, ?_⟩
    rintro r s'' ⟨k, pos, inside, _, rfl, rfl⟩
    have size : (y.take k).length = k := List.length_take_of_le inside
    rw [List.take_append_of_le_length inside, List.drop_append_of_le_length inside]
    cases came : y.take k with
    | nil =>
        rw [came] at size
        exact absurd size.symm pos.ne'
    | cons c cs =>
        apply wp_ret.mpr
        rw [← came]
        refine ⟨⟨y.drop k, ?_, ?_, rfl⟩, fun _ => ?_⟩
        · rw [List.append_assoc, List.take_append_drop, whole]
        · rw [size, List.length_drop]
        · dsimp only
          omega

/-! ### Frames -/

/-- The bytes of a frame. -/
def frameOf (buf : List UInt8) : List UInt8 :=
  be 4 buf.length ++ buf

/-- What can be framed. -/
structure Framed (buf : List UInt8) : Prop where
  some_bytes : 0 < buf.length
  fits : buf.length < 2 ^ 32

theorem sendFrame_wp {buf s : List UInt8} (framed : Framed buf) (room : s ++ frameOf buf <+: stream) :
    Sends stream (Wire.sendFrame buf) s (fun r s' => r = 0 ∧ s' = s ++ frameOf buf) := by
  have size : (UInt32.ofNat buf.length).toNat = buf.length := by
    rw [UInt32.toNat_ofNat', Nat.mod_eq_of_lt framed.fits]
  have some_size : UInt32.ofNat buf.length ≠ 0 := by
    intro zero
    rw [zero] at size
    exact absurd size.symm framed.some_bytes.ne'
  have whole : s ++ be 4 buf.length ++ buf = s ++ frameOf buf := List.append_assoc _ _ _
  have head : s ++ be 4 buf.length <+: stream :=
    (List.prefix_append _ buf).trans (whole ▸ room)
  unfold Wire.sendFrame
  simp only [Prog.bind_eq, Prog.pure_eq]
  rw [if_neg some_size, size]
  apply wp_bind
  have first := send_wp head
  rw [length_be] at first
  apply wp_mono first
  rintro r s' ⟨rfl, rfl⟩
  rw [if_neg (by decide)]
  apply wp_bind
  apply wp_mono (send_wp (whole ▸ room))
  rintro r s' ⟨rfl, rfl⟩
  rw [if_neg (by decide), whole]
  exact wp_ret.mpr ⟨rfl, rfl⟩

theorem recvFrame_wp {T : Type} {f : List UInt8 → Outcome T} {buf : List UInt8}
    (framed : Framed buf) (rest : List UInt8) :
    Receives (Wire.recvFrame f) (frameOf buf ++ rest)
      (fun r s' => r = some (f buf) ∧ s' = rest) := by
  have size : ofBe (be 4 buf.length) = buf.length := by
    rw [ofBe, foldl_be, Nat.mul_zero, Nat.zero_add]
    exact Nat.mod_eq_of_lt framed.fits
  unfold Wire.recvFrame
  simp only [Prog.bind_eq, Prog.pure_eq]
  apply wp_bind
  have first := recv_wp (be 4 buf.length) (buf ++ rest)
  rw [length_be, ← List.append_assoc] at first
  apply wp_mono first
  rintro r s' ⟨rfl, rfl⟩
  dsimp only
  rw [size]
  apply wp_bind
  apply wp_mono (recv_wp buf rest)
  rintro r s' ⟨rfl, rfl⟩
  exact wp_ret.mpr ⟨rfl, rfl⟩

end Loops

/-! ### Messages -/

namespace Message

/-- What the sending function serializes. -/
def serialized : Message → List UInt8
  | .commandHeader type => serializeCommandHeader type
  | .responseHeader type => serializeResponseHeader type
  | .resourceHeader name dir resource_size _ _ =>
      serializeResourceHeader
        { resource_size := resource_size
          resource_name := pad MAX_RESOURCE_LENGTH name
          resource_dir := pad MAX_PATH_LENGTH dir }
  | .fileOffset offset => serializeFileOffset offset
  | .resourceHash hash => serializeResourceHash hash
  | .dataPacket out nbytes => serializeDataPacket { data_payload := out, data_size := nbytes }

theorem send_eq (m : Message) : m.send = Wire.sendFrame m.serialized := by
  cases m with
  | commandHeader type => rfl
  | responseHeader type => rfl
  | resourceHeader name dir resource_size name_fits dir_fits => rfl
  | fileOffset offset => rfl
  | resourceHash hash => rfl
  | dataPacket out nbytes => rfl

theorem framed (m : Message) : Framed m.serialized := by
  cases m with
  | commandHeader type =>
      have length := length_packUint8 type
      exact ⟨length.1, length.2.trans_lt (by decide)⟩
  | responseHeader type =>
      have length := length_packUint8 type
      exact ⟨length.1, length.2.trans_lt (by decide)⟩
  | resourceHeader name dir resource_size name_fits dir_fits =>
      have size := length_packUint64 resource_size
      have heads : (packArray NUM_ATTRS_FOR_RESOURCE_HEADER).length = 1 ∧
          (packStr MAX_RESOURCE_LENGTH).length = 3 ∧ (packStr MAX_PATH_LENGTH).length = 3 := by
        decide
      constructor <;>
        simp only [serialized, serializeResourceHeader, List.length_append, heads,
          List.Vector.toList_length] <;>
        simp only [MAX_RESOURCE_LENGTH, MAX_PATH_LENGTH] <;> omega
  | fileOffset offset =>
      have length := length_packUint64 offset
      exact ⟨length.1, length.2.trans_lt (by decide)⟩
  | resourceHash hash =>
      have bytes := length_packBytes hash.toList
      have head : (packArray MD5_HASH_LENGTH).length = 3 := by decide
      rw [List.Vector.toList_length] at bytes
      constructor <;>
        simp only [serialized, serializeResourceHash, List.length_append, head] <;>
        simp only [MD5_HASH_LENGTH] at bytes ⊢ <;> omega
  | dataPacket out nbytes =>
      have bytes := length_packBytes out.toList
      have size := length_packUint64 nbytes
      have heads : (packArray NUM_ATTRS_FOR_DATA_PACKET).length = 1 ∧
          (packArray BUFFER_SIZE).length = 3 := by decide
      rw [List.Vector.toList_length] at bytes
      constructor <;>
        simp only [serialized, serializeDataPacket, List.length_append, heads] <;>
        simp only [BUFFER_SIZE] at bytes ⊢ <;> omega

end Message

/-- The deserializer of each kind. -/
def MessageKind.deserialize (union : Union) :
    (kind : MessageKind) → List UInt8 → Outcome kind.schema.Val
  | .commandHeader => deserializeCommandHeader Messagepack.unpack union
  | .responseHeader => deserializeResponseHeader Messagepack.unpack union
  | .resourceHeader => deserializeResourceHeader Messagepack.unpack union
  | .fileOffset => deserializeFileOffset Messagepack.unpack union
  | .resourceHash => deserializeResourceHash Messagepack.unpack union
  | .dataPacket => deserializeDataPacket Messagepack.unpack union

theorem MessageKind.recv_eq (union : Union) (kind : MessageKind) :
    kind.recv union = Wire.recvFrame (kind.deserialize union) := by
  cases kind with
  | commandHeader => rfl
  | responseHeader => rfl
  | resourceHeader => rfl
  | fileOffset => rfl
  | resourceHash => rfl
  | dataPacket => rfl

/-- What is serialized is deserialized by the function of the same kind. -/
theorem Message.deserialize_serialized (union : Union) (m : Message) :
    m.kind.deserialize union m.serialized = .accepts m.value := by
  cases m with
  | commandHeader type => exact commandHeader_back union type
  | responseHeader type => exact responseHeader_back union type
  | resourceHeader name dir resource_size name_fits dir_fits =>
      exact resourceHeader_back union _
  | fileOffset offset => exact fileOffset_back union offset
  | resourceHash hash => exact resourceHash_back union hash
  | dataPacket out nbytes => exact dataPacket_back union _

/-- The function of `Calls` that sends the message as one typed frame. -/
def Message.sendTyped {lib : Lib} : Message → P lib Bool
  | .commandHeader type => sendCommandHeader type
  | .responseHeader type => sendResponseHeader type
  | .resourceHeader name dir resource_size _ _ => sendResourceHeader name dir resource_size
  | .fileOffset offset => sendFileOffset offset
  | .resourceHash hash => sendResourceHash hash
  | .dataPacket out nbytes => sendDataPacket out nbytes

/-- The value the typed channel carries is the one the stream delivers. -/
theorem Message.sendTyped_eq {lib : Lib} (m : Message) :
    (m.sendTyped : P lib Bool) = Filerail.send m.kind.schema m.value := by
  cases m with
  | commandHeader type => rfl
  | responseHeader type => rfl
  | resourceHeader name dir resource_size name_fits dir_fits => rfl
  | fileOffset offset => rfl
  | resourceHash hash => rfl
  | dataPacket out nbytes => rfl

/-- What the receiving function makes of a message. -/
def Message.received (m : Message) : Receipt :=
  ⟨m.kind, some (.accepts m.value)⟩

/-- The frames of messages. -/
def framesOf (messages : List Message) : List UInt8 :=
  (messages.map (fun m => frameOf m.serialized)).flatten

theorem sendAll_wp {stream s : List UInt8} {messages : List Message}
    (room : s ++ framesOf messages <+: stream) :
    Sends stream (sendAll messages) s
      (fun r s' => r = messages.map (fun _ => 0) ∧ s' = s ++ framesOf messages) := by
  induction messages generalizing s with
  | nil => exact wp_ret.mpr ⟨rfl, (List.append_nil s).symm⟩
  | cons m rest ih =>
      have split_off : s ++ framesOf (m :: rest) = s ++ frameOf m.serialized ++ framesOf rest :=
        (List.append_assoc _ _ _).symm
      rw [split_off] at room ⊢
      unfold sendAll
      simp only [Prog.bind_eq, Prog.pure_eq]
      apply wp_bind
      rw [m.send_eq]
      apply wp_mono (sendFrame_wp m.framed ((List.prefix_append _ _).trans room))
      rintro r s' ⟨rfl, rfl⟩
      apply wp_bind
      apply wp_mono (ih room)
      rintro r s' ⟨rfl, rfl⟩
      exact wp_ret.mpr ⟨rfl, rfl⟩

theorem recvAll_wp (union : Union) (messages : List Message) (more : List UInt8) :
    Receives (recvAll union (messages.map Message.kind)) (framesOf messages ++ more)
      (fun r s' => r = messages.map Message.received ∧ s' = more) := by
  induction messages with
  | nil => exact wp_ret.mpr ⟨rfl, rfl⟩
  | cons m rest ih =>
      have split_off : framesOf (m :: rest) ++ more =
          frameOf m.serialized ++ (framesOf rest ++ more) := List.append_assoc _ _ _
      rw [split_off, List.map_cons]
      unfold recvAll
      simp only [Prog.bind_eq, Prog.pure_eq]
      apply wp_bind
      rw [MessageKind.recv_eq]
      apply wp_mono (recvFrame_wp m.framed _)
      rintro r s' ⟨rfl, rfl⟩
      apply wp_bind
      apply wp_mono ih
      rintro r s' ⟨rfl, rfl⟩
      apply wp_ret.mpr
      rw [m.deserialize_serialized]
      exact ⟨rfl, rfl⟩

/-! ### A connection that is cut -/

/-- What was received is what was sent, up to the first failure. -/
inductive UntilFailure : List Receipt → List Receipt → Prop
  | nil : UntilFailure [] []
  | same {r : Receipt} {got sent : List Receipt} (rest : UntilFailure got sent) :
      UntilFailure (r :: got) (r :: sent)
  | failed {kind : MessageKind} {got sent : List Receipt} : UntilFailure (⟨kind, none⟩ :: got) sent

theorem recv_cut (n : Nat) (s : List UInt8) :
    Wp cutSem (fun _ _ => True) True (Wire.recv n) s
      (fun r s' => ∀ x, r = some x → x.length = n ∧ s = x ++ s') := by
  refine wp_iterate
    (fun st s' => st.2.length + st.1 = n ∧ s = st.2 ++ s') (fun st _ => st.1)
    ⟨Nat.zero_add n, rfl⟩ (fun _ _ _ => trivial) ?_
  rintro ⟨len, buffer⟩ s' ⟨size, rfl⟩
  dsimp only at size
  unfold Wire.recvRound
  simp only [Prog.bind_eq, Prog.pure_eq]
  split
  · apply wp_ret.mpr
    intro x same
    cases same
    exact ⟨by omega, rfl⟩
  · rename_i more
    apply wp_perform_bind.mpr
    refine ⟨trivial, fun _ => ⟨none, s', Or.inr ⟨Or.inl rfl, rfl⟩⟩, ?_⟩
    intro r s'' answer
    rcases answer with ⟨k, pos, inside, there, rfl, rfl⟩ | ⟨rfl | rfl, rfl⟩
    · have taken : (s'.take k).length = k := List.length_take_of_le there
      cases came : s'.take k with
      | nil =>
          rw [came] at taken
          exact absurd taken.symm pos.ne'
      | cons c cs =>
          apply wp_ret.mpr
          rw [← came]
          refine ⟨⟨?_, ?_⟩, fun _ => ?_⟩
          · rw [List.length_append, taken]
            dsimp only
            omega
          · rw [List.append_assoc, List.take_append_drop]
          · dsimp only
            omega
    · apply wp_ret.mpr
      intro x impossible
      cases impossible
    · apply wp_ret.mpr
      intro x impossible
      cases impossible

theorem recvFrame_cut {T : Type} (f : List UInt8 → Outcome T) (s : List UInt8) :
    Wp cutSem (fun _ _ => True) True (Wire.recvFrame f) s
      (fun r s' => ∀ out, r = some out → ∃ head buf, head.length = 4 ∧ buf.length = ofBe head ∧
        s = head ++ (buf ++ s') ∧ out = f buf) := by
  unfold Wire.recvFrame
  simp only [Prog.bind_eq, Prog.pure_eq]
  apply wp_bind
  apply wp_mono (recv_cut 4 s)
  intro r s' got
  cases r with
  | none =>
      apply wp_ret.mpr
      intro out impossible
      cases impossible
  | some head =>
      obtain ⟨size, rfl⟩ := got head rfl
      apply wp_bind
      apply wp_mono (recv_cut (ofBe head) s')
      intro r s'' got
      cases r with
      | none =>
          apply wp_ret.mpr
          intro out impossible
          cases impossible
      | some buf =>
          obtain ⟨length, rfl⟩ := got buf rfl
          apply wp_ret.mpr
          intro out same
          cases same
          exact ⟨head, buf, size, length, rfl, rfl⟩

/-- After a failure receives go on with whatever bytes come next; they end all the same. -/
theorem recvAll_ends (union : Union) (kinds : List MessageKind) (s : List UInt8) :
    Wp cutSem (fun _ _ => True) True (recvAll union kinds) s (fun _ _ => True) := by
  induction kinds generalizing s with
  | nil => exact wp_ret.mpr trivial
  | cons kind rest ih =>
      unfold recvAll
      simp only [Prog.bind_eq, Prog.pure_eq]
      apply wp_bind
      rw [MessageKind.recv_eq]
      apply wp_mono (recvFrame_cut _ s)
      intro r s' _
      apply wp_bind
      apply wp_mono (ih s')
      intro others s'' _
      exact wp_ret.mpr trivial

/-- A front part of a frame that has a whole frame in it has this frame in it. -/
theorem frame_of_prefix {buf head body s' tail : List UInt8} (framed : Framed buf)
    (size : head.length = 4) (length : body.length = ofBe head)
    (cut : head ++ (body ++ s') <+: frameOf buf ++ tail) : body = buf ∧ s' <+: tail := by
  obtain ⟨more, whole⟩ := cut
  simp only [frameOf, List.append_assoc] at whole
  obtain ⟨rfl, behind⟩ := List.append_inj whole (by rw [size, length_be])
  have value : ofBe (be 4 buf.length) = buf.length := by
    rw [ofBe, foldl_be, Nat.mul_zero, Nat.zero_add]
    exact Nat.mod_eq_of_lt framed.fits
  rw [value] at length
  obtain ⟨rfl, onward⟩ := List.append_inj behind length
  exact ⟨rfl, more, onward⟩

end Filerail
