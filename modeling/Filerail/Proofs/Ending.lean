/-
Module: Filerail.Proofs.Ending
Layer: Proofs
Purpose: The loops that read a file until a counter is zero: the packets of `filerail_sendfile` and
  the hash of `filerail_md5`. Others may change the file while a loop runs; all that is known is how
  many bytes it has at least. A loop ends if these are as many as the counter was set for; if not,
  the end of the file is read again and again, as that is no error of the stream.
Imports: Filerail.Proofs.Local, Filerail.Proofs.Packing
Main exports: Keeping, SendLoopEnds, HashLoopEnds, loops_end_iff
-/
import Filerail.Proofs.Local
import Filerail.Proofs.Packing

namespace Filerail

open FileStore ProgramLogic

variable {lib : Lib}

/-- Others do to the files what they like, but leave the file `i` with `n` bytes at least. -/
def Keeping (i n : Nat) : SysEnv lib :=
  fun _ _ w' => n ≤ (w'.fs.data i).length

/-- The operating system, any call of which may fail, on such files. -/
abbrev Unsettled (lib : Lib) (i n : Nat) : Sem (Sys lib.md5.Ctx) Sys.Resp (SysTape lib) :=
  tapeSem (Keeping i n) (sysSem lib True)

/-- The operation sends a data packet. -/
def isPacketSend (event : SysEvent lib) : Bool :=
  match event.1 with
  | .send .packet _ => true
  | _ => false

/-- How many data packets have been sent. -/
def packetsSent (log : List (SysEvent lib)) : Nat :=
  (log.filter isPacketSend).length

/-- How many packets a number of bytes takes. -/
def packetsFor (bytes : Nat) : Nat :=
  (bytes + (BUFFER_SIZE - 1)) / BUFFER_SIZE

/-- The packet loop for a file that `stat` found to have `size` bytes, from the offset: it ends, after
    no more packets than there are bytes to send, and with an error if the offset is too large. -/
def SendLoopEnds (lib : Lib) (K : AESKeys) (i n : Nat) (size offset : UInt64) : Prop :=
  ∀ w, Wp (soloSem (Unsettled lib i n))
    (fun t _ => packetsSent t.log ≤ packetsFor (size.toNat - offset.toNat)) True
    (Prog.iterate (sendRound K) ({ Stream.opened i with pos := offset.toNat }, size - offset))
    ⟨w, []⟩
    (fun out t => packetsSent t.log ≤ packetsFor (size.toNat - offset.toNat) ∧
      (size < offset → out.2 = false))

/-- The loop of the hash of a file that `stat` found to have `size` bytes ends. -/
def HashLoopEnds (lib : Lib) (i n : Nat) (size : UInt64) : Prop :=
  ∀ w, Terminates (Unsettled lib i n)
    (Prog.iterate md5Round (lib.md5.init, .opened i, size.toNat)) ⟨w, []⟩

/-! ### Reading a file others can write to -/

/-- The file cut, or filled up, to `n` bytes. -/
def World.resized (w : World) (i n : Nat) : World :=
  { w with fs := w.fs.setData i (List.replicate n 0) }

@[simp] theorem World.resized_data (w : World) (i n : Nat) :
    (w.resized i n).fs.data i = List.replicate n 0 :=
  Store.setData_data_self _ _ _

theorem keeping_resized (i n : Nat) (log : List (SysEvent lib)) (w : World) :
    Keeping i n log w (w.resized i n) := by
  unfold Keeping
  rw [World.resized_data, List.length_replicate]

theorem unsettled_answers (i n : Nat) (t : SysTape lib) {e : Sys lib.md5.Ctx} (alive : e ≠ .crash) :
    ∃ r w', Answers (Keeping i n) True t e r w' := by
  obtain ⟨r, w', does⟩ := does_answers (t.world.resized i n) e alive
  exact ⟨r, w', _, keeping_resized i n _ _, Or.inl does⟩

/-- As long as the counter is covered by the file, a read delivers all that is asked for, or it sets
    the error indicator. -/
theorem unsettled_read {i n : Nat} {t : SysTape lib} {fp : Stream} {m : Nat} (ino : fp.ino = i)
    (covered : fp.pos + m ≤ n) {r : List UInt8 × Stream} {w' : World}
    (answer : Answers (Keeping i n) True t (.fread fp m) r w') :
    (r.1.length = m ∧ r.2 = { fp with pos := fp.pos + m }) ∨ (r.1.length ≠ m ∧ r.2.err = true) := by
  obtain ⟨w, kept, ⟨rfl, _⟩ | ⟨_, bytes, short, _, rfl, _⟩⟩ := answer
  · left
    have enough : n ≤ (w.fs.data fp.ino).length := ino ▸ kept
    have full : (((w.fs.data fp.ino).drop fp.pos).take m).length = m := by
      rw [List.length_take, List.length_drop]
      omega
    dsimp only
    rw [full]
    exact ⟨rfl, rfl⟩
  · exact Or.inr ⟨Nat.ne_of_lt short, rfl⟩

/-- At the end of a file of just `n` bytes a read delivers what is left. -/
theorem unsettled_read_end (i n : Nat) (t : SysTape lib) {fp : Stream} (ino : fp.ino = i) (m : Nat) :
    ∃ bytes t', bytes.length = min m (n - fp.pos) ∧
      Unsettled lib i n t (.fread fp m) (bytes, { fp with pos := fp.pos + bytes.length }) t' := by
  have content : (t.world.resized i n).fs.data fp.ino = List.replicate n 0 := by
    rw [ino, World.resized_data]
  refine ⟨((List.replicate n (0 : UInt8)).drop fp.pos).take m, _, ?_, t.world.resized i n, _,
    keeping_resized i n _ _, Or.inl ⟨?_, rfl⟩, rfl⟩
  · rw [List.length_take, List.length_drop, List.length_replicate]
  · rw [content]

/-! ### The packet loop -/

section Sending

variable {K : AESKeys} {i n : Nat}

theorem packetsFor_of_pos {bytes : Nat} (some_bytes : 0 < bytes) :
    packetsFor (bytes - min BUFFER_SIZE bytes) + 1 = packetsFor bytes := by
  unfold packetsFor BUFFER_SIZE
  omega

/-- The counter is covered by what is left of the file, and by the packets still to be sent. -/
structure Covered (n : Nat) (i most : Nat) (st : Stream × UInt64) (t : SysTape lib) : Prop where
  ino : st.1.ino = i
  err : st.1.err = false
  inside : st.2 = 0 ∨ st.1.pos + st.2.toNat ≤ n
  packets : packetsSent t.log + packetsFor st.2.toNat ≤ most

theorem sendRound_ends {most : Nat} {failed : Prop} {st : Stream × UInt64} {t : SysTape lib}
    (sound : ¬ failed) (covered : Covered n i most st t) :
    Wp (soloSem (Unsettled lib i n)) (fun t _ => packetsSent t.log ≤ most) True (sendRound K st) t
      (LoopPost True (Covered n i most) (fun st _ => st.2.toNat) st.2.toNat
        (fun out t => packetsSent t.log ≤ most ∧ (failed → out.2 = false))) := by
  obtain ⟨fp, size⟩ := st
  obtain ⟨ino, err, inside, packets⟩ := covered
  dsimp only at *
  have few : packetsSent t.log ≤ most := by omega
  unfold sendRound
  simp only [Prog.bind_eq, Prog.pure_eq]
  refine wp_solo_bind few (fun _ => unsettled_answers i n t (by simp)) (fun _ w₁ _ => ?_)
  by_cases zero : size = 0
  · rw [if_pos zero, wp_ret]
    exact ⟨few, fun wrong => absurd wrong sound⟩
  · rw [if_neg zero]
    have some_bytes : 0 < size.toNat := Nat.pos_of_ne_zero
      (fun none_left => zero (UInt64.toNat.inj none_left))
    have positive : 0 < BUFFER_SIZE := by decide
    refine wp_solo_bind few (fun _ => unsettled_answers i n _ (by simp)) (fun r w₂ answer => ?_)
    obtain ⟨input, fp'⟩ := r
    rcases unsettled_read ino (by have := inside.resolve_left zero; omega) answer with
      ⟨length, same⟩ | ⟨short, broken⟩
    · dsimp only at length same
      subst same
      dsimp only
      rw [if_neg (fun wrong => wrong.1 length)]
      obtain ⟨out, encrypted⟩ : ∃ out, encrypt lib (pad BUFFER_SIZE input) K = some out :=
        encrypt_isSome _ K
      rw [encrypted]
      dsimp only
      refine wp_solo_send few (fun sent => ?_)
      have counter : (UInt64.ofNat input.length).toNat = min BUFFER_SIZE size.toNat := by
        rw [UInt64.toNat_ofNat', length]
        have := size.toNat_lt
        omega
      have after : (size - .ofNat input.length).toNat =
          size.toNat - min BUFFER_SIZE size.toNat := by
        rw [UInt64.toNat_sub_of_le, counter]
        refine UInt64.le_iff_toNat_le.mpr ?_
        omega
      have onwards := packetsFor_of_pos some_bytes
      cases sent with
      | true =>
          rw [if_pos rfl, wp_ret]
          refine ⟨⟨ino, err, Or.inr ?_, ?_⟩, fun _ => ?_⟩
          · dsimp only
            have := inside.resolve_left zero
            omega
          · show packetsSent t.log + 1 + packetsFor (size - .ofNat input.length).toNat ≤ most
            rw [after]
            omega
          · dsimp only
            omega
      | false =>
          rw [if_neg Bool.false_ne_true, wp_ret]
          refine ⟨?_, fun _ => rfl⟩
          show packetsSent t.log + 1 ≤ most
          omega
    · dsimp only at short broken ⊢
      rw [if_pos ⟨short, broken⟩, wp_ret]
      exact ⟨few, fun _ => rfl⟩

/-- One more round behind the end of the file. -/
theorem sendRound_goes_on {fp : Stream} {size : UInt64} (t : SysTape lib) (ino : fp.ino = i)
    (err : fp.err = false) (beyond : n - fp.pos < size.toNat) :
    ∃ bytes t', bytes ≤ n - fp.pos ∧ n - (fp.pos + bytes) < size.toNat - bytes ∧
      Prog.Reach (soloSem (Unsettled lib i n)) (sendRound K (fp, size), t)
        (.ret (.inl ({ fp with pos := fp.pos + bytes }, size - .ofNat bytes)), t') := by
  have nonzero : size ≠ 0 := by
    rintro rfl
    exact absurd beyond (Nat.not_lt_zero _)
  obtain ⟨r, w, answer⟩ := unsettled_answers i n t (e := .remaining size) (by simp)
  obtain ⟨input, t₂, length, read⟩ := unsettled_read_end i n (Tape.after t (.remaining size) r w) ino
    (min BUFFER_SIZE size.toNat)
  obtain ⟨out, encrypted⟩ : ∃ out, encrypt lib (pad BUFFER_SIZE input) K = some out :=
    encrypt_isSome _ K
  refine ⟨input.length, t₂.record (.send .packet ⟨out, .ofNat input.length⟩) true, ?_, ?_, ?_⟩
  · omega
  · have positive : 0 < BUFFER_SIZE := by decide
    omega
  · obtain ⟨w', changed, answer⟩ := answer
    unfold sendRound
    simp only [Prog.bind_eq, Prog.pure_eq]
    refine .head (step_solo_loc ⟨w', w, changed, answer, rfl⟩) ?_
    rw [if_neg nonzero]
    refine .head (step_solo_loc read) ?_
    dsimp only
    rw [if_neg (fun wrong => Bool.false_ne_true (err.symm.trans wrong.2)), encrypted]
    exact .head (step_solo_send true) .refl

theorem sendLoop_endless {fp : Stream} {size : UInt64} (t : SysTape lib) (ino : fp.ino = i)
    (err : fp.err = false) (beyond : n - fp.pos < size.toNat) :
    ¬ Terminates (soloSem (Unsettled lib i n)) (Prog.iterate (sendRound K) (fp, size)) t := by
  apply Terminates.not_forever (I := fun c => ∃ fp size, c.1 = Prog.iterate (sendRound K) (fp, size) ∧
    fp.ino = i ∧ fp.err = false ∧ n - fp.pos < size.toNat)
  · rintro ⟨p, t⟩ ⟨fp, size, rfl, ino, err, beyond⟩
    obtain ⟨bytes, t', few, still_beyond, run⟩ := @sendRound_goes_on lib K i n fp size t ino err beyond
    refine ⟨(Prog.iterate (sendRound K) ({ fp with pos := fp.pos + bytes }, size - .ofNat bytes), t'),
      .head' .loop (Prog.reach_bind run), _, _, rfl, ino, err, ?_⟩
    have counter : (UInt64.ofNat bytes).toNat = bytes := by
      rw [UInt64.toNat_ofNat', Nat.mod_eq_of_lt]
      have := size.toNat_lt
      omega
    rw [UInt64.toNat_sub_of_le, counter]
    · exact still_beyond
    · rw [UInt64.le_iff_toNat_le, counter]
      omega
  · exact ⟨fp, size, rfl, ino, err, beyond⟩

/-- The packet loop does what it should exactly when the offset is inside the file, and the file keeps
    the size that was found. -/
theorem sendLoop_ends_iff {m size offset : UInt64} :
    SendLoopEnds lib K i m.toNat size offset ↔ offset ≤ size ∧ (offset = size ∨ size ≤ m) := by
  have size_lt := size.toNat_lt
  have m_lt := m.toNat_lt
  have offset_lt := offset.toNat_lt
  constructor
  · intro ends
    by_contra wrong
    have stops := (ends ⟨Store.bare, []⟩).ends trivial
    refine @sendLoop_endless lib K i m.toNat _ _ _ rfl rfl ?_ stops
    show m.toNat - offset.toNat < (size - offset).toNat
    rw [UInt64.le_iff_toNat_le, UInt64.le_iff_toNat_le, ← UInt64.toNat_inj] at wrong
    rw [UInt64.toNat_sub]
    omega
  · rintro ⟨inside, room⟩ w
    have inside' := UInt64.le_iff_toNat_le.mp inside
    have rest := UInt64.toNat_sub_of_le _ _ inside
    refine wp_iterate (Covered m.toNat i (packetsFor (size.toNat - offset.toNat)))
      (fun st _ => st.2.toNat) ⟨rfl, rfl, ?_, ?_⟩ ?_ ?_
    · refine room.imp ?_ (fun kept => ?_)
      · rintro rfl
        exact UInt64.sub_self _
      · have kept := UInt64.le_iff_toNat_le.mp kept
        show offset.toNat + (size - offset).toNat ≤ m.toNat
        omega
    · show 0 + packetsFor (size - offset).toNat ≤ _
      rw [rest, Nat.zero_add]
    · intro st t covered
      have few := covered.packets
      omega
    · intro st t covered
      exact sendRound_ends (UInt64.not_lt.mpr inside) covered

end Sending

/-! ### The hash -/

section Hashing

variable {i n : Nat}

theorem md5Round_ends {st : lib.md5.Ctx × Stream × Nat} {t : SysTape lib}
    (ino : st.2.1.ino = i) (inside : st.2.1.pos + st.2.2 ≤ n) :
    Wp (Unsettled lib i n) (fun _ _ => True) True (md5Round st) t
      (LoopPost True (fun st _ => st.2.1.ino = i ∧ st.2.1.pos + st.2.2 ≤ n) (fun st _ => st.2.2)
        st.2.2 (fun _ _ => True)) := by
  obtain ⟨ctx, fp, size⟩ := st
  dsimp only at *
  unfold md5Round
  simp only [Prog.bind_eq, Prog.pure_eq]
  by_cases zero : size = 0
  · rw [if_pos zero, wp_ret]
    trivial
  · rw [if_neg zero]
    refine wp_sys_bind trivial (fun _ => unsettled_answers i n _ (by simp)) (fun r w answer => ?_)
    have positive : 0 < BUFFER_SIZE := by decide
    obtain ⟨buffer, fp'⟩ := r
    rcases unsettled_read ino (by omega) answer with ⟨length, same⟩ | ⟨short, broken⟩
    · dsimp only at length same
      subst same
      dsimp only
      rw [if_neg (fun wrong => wrong.1 length)]
      refine wp_ret.mpr ⟨⟨ino, ?_⟩, fun _ => ?_⟩
      · dsimp only
        omega
      · dsimp only
        omega
    · dsimp only at short broken ⊢
      rw [if_pos ⟨short, broken⟩, wp_ret]
      trivial

/-- One more round behind the end of the file. -/
theorem md5Round_goes_on {ctx : lib.md5.Ctx} {fp : Stream} {size : Nat} (t : SysTape lib)
    (ino : fp.ino = i) (err : fp.err = false) (beyond : n - fp.pos < size) :
    ∃ ctx' bytes t', bytes ≤ n - fp.pos ∧ n - (fp.pos + bytes) < size - bytes ∧
      Prog.Reach (Unsettled lib i n) (md5Round (ctx, fp, size), t)
        (.ret (.inl (ctx', { fp with pos := fp.pos + bytes }, size - bytes)), t') := by
  have positive : 0 < BUFFER_SIZE := by decide
  have nonzero : size ≠ 0 := by omega
  obtain ⟨buffer, t', length, read⟩ := unsettled_read_end i n t ino (min BUFFER_SIZE size)
  refine ⟨lib.md5.update ctx buffer, buffer.length, t', by omega, by omega, ?_⟩
  unfold md5Round
  simp only [Prog.bind_eq, Prog.pure_eq]
  rw [if_neg nonzero]
  refine .head (Prog.step_perform read) ?_
  dsimp only
  rw [if_neg (fun wrong => Bool.false_ne_true (err.symm.trans wrong.2))]

theorem md5Loop_endless {ctx : lib.md5.Ctx} {fp : Stream} {size : Nat} (t : SysTape lib)
    (ino : fp.ino = i) (err : fp.err = false) (beyond : n - fp.pos < size) :
    ¬ Terminates (Unsettled lib i n) (Prog.iterate md5Round (ctx, fp, size)) t := by
  apply Terminates.not_forever (I := fun c => ∃ ctx fp size,
    c.1 = Prog.iterate (@md5Round lib) (ctx, fp, size) ∧ fp.ino = i ∧ fp.err = false ∧
      n - fp.pos < size)
  · rintro ⟨p, t⟩ ⟨ctx, fp, size, rfl, ino, err, beyond⟩
    obtain ⟨ctx', bytes, t', few, still_beyond, run⟩ :=
      @md5Round_goes_on lib i n ctx fp size t ino err beyond
    exact ⟨(Prog.iterate md5Round (ctx', { fp with pos := fp.pos + bytes }, size - bytes), t'),
      .head' .loop (Prog.reach_bind run), _, _, _, rfl, ino, err, still_beyond⟩
  · exact ⟨ctx, fp, size, rfl, ino, err, beyond⟩

/-- The loop of the hash ends exactly when the file keeps the size that was found. -/
theorem hashLoop_ends_iff {m size : UInt64} : HashLoopEnds lib i m.toNat size ↔ size ≤ m := by
  rw [UInt64.le_iff_toNat_le]
  constructor
  · intro ends
    by_contra wrong
    refine @md5Loop_endless lib i m.toNat _ _ _ _ rfl rfl ?_ (ends ⟨Store.bare, []⟩)
    show m.toNat - 0 < size.toNat
    omega
  · intro kept w
    refine Wp.ends (wp_iterate (fun st _ => st.2.1.ino = i ∧ st.2.1.pos + st.2.2 ≤ m.toNat)
      (fun st _ => st.2.2) ⟨rfl, ?_⟩ (fun _ _ _ => trivial)
      (fun st t covered => md5Round_ends covered.1 covered.2)) trivial
    show 0 + size.toNat ≤ m.toNat
    omega

end Hashing

end Filerail
