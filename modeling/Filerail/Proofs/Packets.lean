/-
Module: Filerail.Proofs.Packets
Layer: Proofs
Purpose: The packet loop of `filerail_recvfile` against a peer that may send anything, on a machine
  whose calls may fail and which others use as well. The code trusts the sizes it is sent. As long as
  they fit - the header is not smaller than the offset, and each packet has some bytes, no more than
  its payload and no more than are still to come - it writes what it has received and counts it right.
Imports: Filerail.Proofs.Seek, Filerail.Proofs.Conduct
Main exports: Ledger, ledger, Fits, Sound, Accomplished, recvfile_robust
-/
import Filerail.Proofs.Seek
import Filerail.Proofs.Conduct

namespace Filerail

open FileStore ProgramLogic

variable {lib : Lib}

/-! ### What the log of a transfer says -/

/-- The bytes of packets that were to be written, the latest value of the counter, the header, the
    offset in the latest checkpoint, and whether all writes have been complete. -/
structure Ledger where
  payload : Nat
  remaining : Option UInt64
  header : Option ResourceHeader
  ckpt : Option UInt64
  whole : Bool

/-- One more operation. A write is one of a payload if its buffer is of that length, and else one of a
    checkpoint. -/
def Ledger.enter (l : Ledger) : SysEvent lib → Ledger
  | ⟨.loc (.fwrite _ buffer n), out⟩ =>
      let written : Nat × Stream := out
      if buffer.length = BUFFER_SIZE then
        { l with payload := l.payload + n, whole := l.whole && written.1 == n }
      else
        { l with ckpt := some (Checkpoint.ofImage buffer).offset, whole := l.whole && written.1 == n }
  | ⟨.loc (.remaining size), _⟩ => { l with remaining := some size }
  | ⟨.recv .resource, some resource⟩ => { l with header := some resource }
  | _ => l

def ledger : List (SysEvent lib) → Ledger
  | [] => ⟨0, none, none, none, true⟩
  | event :: earlier => (ledger earlier).enter event

/-- Each operation is as `P` has it, given what came before. -/
def Along (P : Ledger → SysEvent lib → Prop) : List (SysEvent lib) → Prop
  | [] => True
  | event :: earlier => P (ledger earlier) event ∧ Along P earlier

instance (P : Ledger → SysEvent lib → Prop) [∀ l event, Decidable (P l event)] :
    (log : List (SysEvent lib)) → Decidable (Along P log)
  | [] => isTrue trivial
  | event :: earlier =>
      have : Decidable (Along P earlier) := instDecidableAlong P earlier
      inferInstanceAs (Decidable (P (ledger earlier) event ∧ Along P earlier))

/-- The peer sends sizes that fit. An offset the seek cannot reach does no harm only if nothing is to
    be written there. -/
def Fits (k : UInt64) (l : Ledger) : SysEvent lib → Prop
  | ⟨.recv .packet, some data⟩ =>
      ∀ size ∈ l.remaining, 0 < data.data_size.toNat ∧
        data.data_size.toNat ≤ min BUFFER_SIZE size.toNat
  | ⟨.recv .resource, some resource⟩ =>
      k ≤ resource.resource_size ∧ (k.toNat ≤ 2 ^ 31 ∨ k = resource.resource_size)
  | _ => True

instance (k : UInt64) (l : Ledger) : (event : SysEvent lib) → Decidable (Fits k l event)
  | ⟨.recv .packet, some data⟩ =>
      Option.decidableForallMem (p := fun size : UInt64 => 0 < data.data_size.toNat ∧
        data.data_size.toNat ≤ min BUFFER_SIZE size.toNat) l.remaining
  | ⟨.recv .resource, some resource⟩ =>
      inferInstanceAs (Decidable (k ≤ resource.resource_size ∧
        (k.toNat ≤ 2 ^ 31 ∨ k = resource.resource_size)))
  | ⟨.recv .packet, none⟩ => isTrue trivial
  | ⟨.recv .resource, none⟩ => isTrue trivial
  | ⟨.recv .code, _⟩ => isTrue trivial
  | ⟨.recv .offset, _⟩ => isTrue trivial
  | ⟨.recv .hash, _⟩ => isTrue trivial
  | ⟨.send _ _, _⟩ => isTrue trivial
  | ⟨.loc _, _⟩ => isTrue trivial

/-- A write takes bytes from inside its buffer, a payload goes where the one before it ended, and the
    counter gets smaller and is what is still to come. -/
def Sound (k : UInt64) (l : Ledger) : SysEvent lib → Prop
  | ⟨.loc (.fwrite fp buffer n), _⟩ =>
      n ≤ buffer.length ∧
        (buffer.length = BUFFER_SIZE → fp.pos + fp.pending.length = k.toNat + l.payload)
  | ⟨.loc (.remaining size), _⟩ =>
      (∀ last ∈ l.remaining, size < last) ∧
        ∀ resource ∈ l.header, size.toNat + l.payload + k.toNat = resource.resource_size.toNat
  | _ => True

/-- All that the header announced has been written, and the checkpoint says so. -/
def Accomplished (k : UInt64) (l : Ledger) : Prop :=
  ∃ resource, l.header = some resource ∧ l.payload + k.toNat = resource.resource_size.toNat ∧
    l.ckpt.getD k = resource.resource_size ∧ l.whole = true

/-- If the peer keeps to the sizes, all is in order. -/
def Robust (k : UInt64) (log : List (SysEvent lib)) : Prop :=
  Along (Fits k) log → Along (Sound k) log

section Loop

variable {env : SysEnv lib} {faulty : Prop} {k : UInt64} {t : SysTape lib}

/-- Neither a write nor the counter. -/
def Quiet : Sys lib.md5.Ctx → Prop
  | .fwrite _ _ _ => False
  | .remaining _ => False
  | _ => True

/-- Both kinds of facts, with the ledger. -/
structure Kept (k : UInt64) (l : Ledger) (t : SysTape lib) : Prop where
  fits : Along (Fits k) t.log
  sound : Along (Sound k) t.log
  ledger : ledger t.log = l

theorem Kept.robust {l : Ledger} (kept : Kept k l t) : Robust k t.log :=
  fun _ => kept.sound

theorem Kept.quiet {l : Ledger} (kept : Kept k l t) {e : Sys lib.md5.Ctx} (quiet : Quiet e)
    (r : e.Resp) (w : World) : Kept k l (Tape.after t e r w) := by
  obtain ⟨fits, sound, same⟩ := kept
  cases e with
  | fwrite fp buffer n => exact quiet.elim
  | remaining size => exact quiet.elim
  | _ => exact ⟨⟨trivial, fits⟩, ⟨trivial, sound⟩, same⟩

theorem Kept.program {α : Type} {l : Ledger} (kept : Kept k l t) {p : L lib α}
    (calls : p.Calls Quiet) :
    Wp (tapeSem env (sysSem lib faulty)) (fun t _ => Robust k t.log) False p t
      (fun _ t' => Kept k l t') := by
  refine wp_calls calls (Kept k l) kept ?_ (fun _ _ _ kept => kept.robust) (fun _ kept => kept.robust)
  rintro t' e r _ quiet kept ⟨_, w', _, _, rfl⟩
  exact kept.quiet quiet r w'

theorem transferCleanUp_quiet (fp fckpt : Option Stream) (status : Int) :
    (transferCleanUp fp fckpt status : L lib Int).Calls Quiet :=
  transferCleanUp_calls (fun _ => trivial) (fun _ => trivial) fp fckpt status

theorem openPartial_quiet (path : CStr) (offset : UInt64) :
    (openPartial path offset : L lib _).Calls Quiet :=
  openPartial_calls (fun _ _ => trivial) (fun _ => trivial) trivial path offset

/-- What a flush leaves in the stream and what it hands on add up. -/
theorem flushed_extent (fp : Stream) (bytes : List UInt8) (j : Nat) :
    (fp.flushed bytes j).pos + (fp.flushed bytes j).pending.length = fp.pos + bytes.length := by
  simp only [Stream.flushed, List.length_take, List.length_drop]
  omega

/-- A write reports all its bytes, or the error indicator is set. -/
theorem fwrite_answer {fp : Stream} {buffer : List UInt8} {n : Nat} {r : Nat × Stream} {w' : World}
    (answer : Answers env faulty t (.fwrite fp buffer n) r w') :
    (r.1 = n ∧ r.2.pos + r.2.pending.length = fp.pos + fp.pending.length + n) ∨
      (r.1 ≠ n ∧ r.2.err = true) := by
  obtain ⟨w, _, ⟨bytes, j, size, _, rfl, _⟩ | ⟨_, bytes, j, m, _, _, less, rfl, _⟩⟩ := answer
  · left
    refine ⟨rfl, ?_⟩
    rw [flushed_extent, List.length_append, size, Nat.add_assoc]
  · exact Or.inr ⟨Nat.ne_of_lt less, rfl⟩

theorem fflush_answer {fp : Stream} {r : Stream} {w' : World}
    (answer : Answers env faulty t (.fflush fp) r w') :
    r.pos + r.pending.length = fp.pos + fp.pending.length := by
  obtain ⟨w, _, ⟨rfl, _⟩ | ⟨_, j, rfl, _⟩⟩ := answer
  · exact flushed_extent _ _ _
  · exact flushed_extent _ _ _

/-- A checkpoint that has been written is in the ledger. -/
theorem writeCheckpoint_kept {l : Ledger} (kept : Kept k l t) {image : List UInt8}
    (size : image.length = sizeofCheckpoint) (tmp ckpt : CStr) :
    Wp (tapeSem env (sysSem lib faulty)) (fun t _ => Robust k t.log) False
      (writeCheckpoint image tmp ckpt) t
      (fun out t' => Robust k t'.log ∧ (out.2 = true →
        Kept k { l with ckpt := some (Checkpoint.ofImage image).offset } t')) := by
  unfold writeCheckpoint
  simp only [Prog.bind_eq, Prog.pure_eq]
  refine wp_sys_bind kept.robust False.elim (fun fckpt w₁ _ => ?_)
  have kept₁ := kept.quiet (e := .fopen tmp .wb) trivial fckpt w₁
  cases fckpt with
  | none => exact wp_ret.mpr ⟨kept₁.robust, fun failed => nomatch failed⟩
  | some fckpt =>
      dsimp only
      refine wp_sys_bind kept₁.robust False.elim (fun r w₂ _ => ?_)
      obtain ⟨written, fckpt'⟩ := r
      have other : image.length ≠ BUFFER_SIZE := by
        rw [size]
        decide
      have sound₂ : Along (Sound k) (Tape.after (Tape.after t (.fopen tmp .wb) (some fckpt) w₁)
          (.fwrite fckpt image sizeofCheckpoint) (written, fckpt') w₂).log :=
        ⟨⟨size.ge, fun wrong => absurd wrong other⟩, kept₁.sound⟩
      dsimp only
      by_cases all : written = sizeofCheckpoint
      · rw [if_neg (not_not_intro all)]
        have kept₂ : Kept k { l with ckpt := some (Checkpoint.ofImage image).offset }
            (Tape.after (Tape.after t (.fopen tmp .wb) (some fckpt) w₁)
              (.fwrite fckpt image sizeofCheckpoint) (written, fckpt') w₂) := by
          refine ⟨⟨trivial, kept₁.fits⟩, sound₂, ?_⟩
          show (ledger (Tape.after t (.fopen tmp .wb) (some fckpt) w₁).log).enter _ = _
          rw [kept₁.ledger]
          simp [Ledger.enter, other, all]
        refine wp_sys_bind kept₂.robust False.elim (fun fckpt'' w₃ _ => ?_)
        have kept₃ := kept₂.quiet (e := .fflush fckpt') trivial fckpt'' w₃
        refine wp_sys_bind kept₃.robust False.elim (fun closed w₄ _ => ?_)
        have kept₄ := kept₃.quiet (e := .fclose fckpt'') trivial closed w₄
        refine wp_sys_bind kept₄.robust False.elim (fun renamed w₅ _ => ?_)
        have kept₅ := kept₄.quiet (e := .rename tmp ckpt) trivial renamed w₅
        exact wp_ret.mpr ⟨kept₅.robust, fun _ => kept₅⟩
      · rw [if_pos all]
        exact wp_ret.mpr ⟨fun _ => sound₂, fun failed => nomatch failed⟩

theorem fopen_answer {path : CStr} {mode : Mode} {r : Option Stream} {w' : World}
    (answer : Answers env faulty t (.fopen path mode) r w') :
    r = none ∨ ∃ i, r = some (Stream.opened i) := by
  obtain ⟨w, _, does | ⟨_, fault, _⟩⟩ := answer
  · cases mode with
    | wb =>
        rcases does with ⟨i, _, rfl, _⟩ | ⟨i, _, _, rfl, _⟩ | ⟨rfl, _⟩
        · exact Or.inr ⟨i, rfl⟩
        · exact Or.inr ⟨i, rfl⟩
        · exact Or.inl rfl
    | rb | rPlusB =>
        rcases does with ⟨i, _, rfl, _⟩ | ⟨rfl, _⟩
        · exact Or.inr ⟨i, rfl⟩
        · exact Or.inl rfl
  · exact Or.inl fault

theorem fgetc_answer {fp : Stream} {c : UInt8} {fp' : Stream} {w' : World}
    (answer : Answers env faulty t (.fgetc fp) (some c, fp') w') :
    fp' = { fp with pos := fp.pos + 1 } := by
  obtain ⟨w, _, (⟨_, _, same, _⟩ | ⟨_, same, _⟩) | ⟨_, same, _⟩⟩ := answer
  · cases same
    rfl
  · cases same
  · cases same

/-- The counter of the seek and the stream, if there is one, have come to the same place. -/
def Counted (k : UInt64) (st : BitVec 32 × Option Stream) (_ : SysTape lib) : Prop :=
  ∃ n, n ≤ counterStop k.toNat ∧ st.1 = .ofNat 32 n ∧
    ∀ fp, st.2 = some fp → fp.pos = n ∧ fp.pending = []

/-- The stream is where the counter of the seek stops. -/
def Placed (k : UInt64) (out : Option Stream × Bool) (_ : SysTape lib) : Prop :=
  out.2 = true → ∀ fp, out.1 = some fp → fp.pos + fp.pending.length = counterStop k.toNat

theorem seekRound_position {st : BitVec 32 × Option Stream} (counted : Counted k st t) :
    Wp (tapeSem env (sysSem lib faulty)) (fun _ _ => True) False (seekRound k st) t
      (LoopPost False (Counted k) (fun _ _ => 0) 0 (Placed k)) := by
  obtain ⟨i, fp⟩ := st
  obtain ⟨n, below, same, place⟩ := counted
  have same : i = .ofNat 32 n := same
  subst same
  unfold seekRound
  simp only [Prog.bind_eq, Prog.pure_eq, counter_reads k.toNat_lt below]
  by_cases more : n < counterStop k.toNat
  · rw [if_pos more]
    cases fp with
    | none => exact wp_sys_bind trivial False.elim (fun dead => nomatch dead)
    | some fp =>
        obtain ⟨pos, pending⟩ := place fp rfl
        refine wp_sys_bind trivial False.elim (fun r w' answer => ?_)
        obtain ⟨c, fp'⟩ := r
        cases c with
        | none => exact wp_ret.mpr (fun failed => nomatch failed)
        | some c =>
            have next := fgetc_answer answer
            refine wp_ret.mpr ⟨⟨n + 1, more, ?_, ?_⟩, False.elim⟩
            · rw [BitVec.ofNat_add]
              rfl
            · rintro _ ⟨⟩
              rw [next]
              exact ⟨congrArg (· + 1) pos, pending⟩
  · rw [if_neg more, wp_ret]
    intro _ fp' here
    obtain ⟨pos, pending⟩ := place fp' here
    rw [pending, pos, List.length_nil]
    omega

theorem openPartial_position (path : CStr) :
    Wp (tapeSem env (sysSem lib faulty)) (fun _ _ => True) False (openPartial path k) t
      (Placed k) := by
  unfold openPartial
  simp only [Prog.bind_eq, Prog.pure_eq]
  by_cases start : k = 0
  · rw [if_pos start]
    refine wp_sys_bind trivial False.elim (fun r w' answer => wp_ret.mpr (fun _ fp here => ?_))
    subst start
    rcases fopen_answer answer with rfl | ⟨i, rfl⟩
    · cases here
    · cases here
      rfl
  · rw [if_neg start]
    refine wp_sys_bind trivial False.elim (fun r w' answer => ?_)
    refine wp_iterate (Counted k) (fun _ _ => 0) ⟨0, Nat.zero_le _, rfl, fun fp here => ?_⟩
      (fun _ _ _ => trivial) (fun st t counted => seekRound_position counted)
    rcases fopen_answer answer with rfl | ⟨i, rfl⟩
    · cases here
    · cases here
      exact ⟨rfl, rfl⟩

/-! ### The loop -/

variable {resource : ResourceHeader}

/-- The head of the loop, when the peer has kept to the sizes: `n` bytes have been written, and the
    counter and the offset are in step with them. -/
structure InStep (k : UInt64) (resource : ResourceHeader) (st : Stream × UInt64 × UInt64)
    (t : SysTape lib) : Prop where
  fits : Along (Fits k) t.log
  sound : Along (Sound k) t.log
  header : (ledger t.log).header = some resource
  whole : (ledger t.log).whole = true
  size : st.2.1.toNat + (ledger t.log).payload + k.toNat = resource.resource_size.toNat
  less : ∀ last ∈ (ledger t.log).remaining, st.2.1 < last
  offset : st.2.2.toNat = k.toNat + (ledger t.log).payload
  place : st.2.1 = 0 ∨ st.1.pos + st.1.pending.length = k.toNat + (ledger t.log).payload
  saved : (ledger t.log).ckpt.getD k = st.2.2

/-- What the loop leaves. -/
def RoundsDone (k : UInt64) (ok : Bool) (t : SysTape lib) : Prop :=
  Robust k t.log ∧ (Along (Fits k) t.log → ok = true → Accomplished k (ledger t.log))

/-- A peer that has not kept to the sizes. -/
theorem wp_spoiled {α : Type} {p : P lib α} {post : α → SysTape lib → Prop}
    (spoiled : ¬ Along (Fits k) t.log) (done : ∀ a t', ¬ Along (Fits k) t'.log → post a t') :
    Wp (soloSem (tapeSem env (sysSem lib faulty))) (fun t _ => Robust k t.log) False p t post := by
  refine wp_invariant (fun t => ¬ Along (Fits k) t.log) spoiled ?_
    (fun _ _ spoiled fits => absurd fits spoiled) done
  intro t a r t' spoiled answer fits
  rw [solo_logs answer] at fits
  exact spoiled fits.2

/-- The part of a round behind a packet whose size fits. -/
theorem recvPacket_in_step {K : AESKeys} {mem : Memory} {ckpt path : CStr} {fp : Stream}
    {size offset : UInt64} {data : DataPacket} (fits : Along (Fits k) t.log)
    (sound : Along (Sound k) t.log) (header : (ledger t.log).header = some resource)
    (whole : (ledger t.log).whole = true)
    (size_eq : size.toNat + (ledger t.log).payload + k.toNat = resource.resource_size.toNat)
    (counter : (ledger t.log).remaining = some size)
    (offset_eq : offset.toNat = k.toNat + (ledger t.log).payload)
    (place : fp.pos + fp.pending.length = k.toNat + (ledger t.log).payload)
    (some_bytes : 0 < data.data_size.toNat)
    (few : data.data_size.toNat ≤ min BUFFER_SIZE size.toNat) :
    Wp (soloSem (tapeSem env (sysSem lib faulty))) (fun t _ => Robust k t.log) False
      (match decrypt lib data.data_payload K with
        | none => Prog.ret (Sum.inr (fp, none, false))
        | some out =>
            Prog.bind (Prog.loc (fwrite fp out.toList data.data_size.toNat)) (fun r =>
              if r.1 ≠ data.data_size.toNat ∧ r.2.err = true then Prog.ret (Sum.inr (r.2, none, false))
              else
                Prog.bind (Prog.loc (fflush r.2)) (fun fp =>
                  Prog.bind (Prog.loc (writeCheckpoint (Checkpoint.image
                      { offset := offset + data.data_size, resource_path := strcpy mem.path path }
                      mem.padding) (ckpt ++ dotTmp) ckpt)) (fun saved =>
                    if saved.2 = true then
                      Prog.ret (Sum.inl (fp, size - data.data_size, offset + data.data_size))
                    else Prog.ret (Sum.inr (fp, saved.1, false)))))) t
      (LoopPost False (fun st t => ¬ Along (Fits k) t.log ∨ InStep k resource st t) (fun _ _ => 0) 0
        (fun (out : Stream × Option Stream × Bool) t => RoundsDone k out.2.2 t)) := by
  have failed : ∀ {t : SysTape lib} (fp : Stream) (fckpt : Option Stream), Robust k t.log →
      LoopPost False (fun st t => ¬ Along (Fits k) t.log ∨ InStep k resource st t) (fun _ _ => 0) 0
        (fun (out : Stream × Option Stream × Bool) t => RoundsDone k out.2.2 t)
        (.inr (fp, fckpt, false)) t :=
    fun _ _ robust => ⟨robust, fun _ wrong => nomatch wrong⟩
  cases decrypt lib data.data_payload K with
  | none => exact wp_ret.mpr (failed _ _ (fun _ => sound))
  | some out =>
      dsimp only
      have full : out.toList.length = BUFFER_SIZE := out.toList_length
      refine wp_solo_bind (fun _ => sound) False.elim (fun r w₁ answer => ?_)
      obtain ⟨written, fp₁⟩ := r
      have sound₁ : Along (Sound k)
          (Tape.after t (.fwrite fp out.toList data.data_size.toNat) (written, fp₁) w₁).log := by
        refine ⟨⟨?_, fun _ => place⟩, sound⟩
        omega
      rcases fwrite_answer answer with ⟨all, extent⟩ | ⟨short, broken⟩
      · dsimp only at all extent ⊢
        subst all
        rw [if_neg (fun wrong => wrong.1 rfl)]
        have kept₁ : Kept k { ledger t.log with payload := (ledger t.log).payload + data.data_size.toNat }
            (Tape.after t (.fwrite fp out.toList data.data_size.toNat) (data.data_size.toNat, fp₁)
              w₁) := by
          refine ⟨⟨trivial, fits⟩, sound₁, ?_⟩
          show (ledger t.log).enter _ = _
          simp [Ledger.enter, full, whole]
        refine wp_solo_bind kept₁.robust False.elim (fun fp₂ w₂ answer => ?_)
        have extent₂ := (fflush_answer answer).trans extent
        have kept₂ := kept₁.quiet (e := .fflush fp₁) trivial fp₂ w₂
        have small : offset.toNat + data.data_size.toNat < 2 ^ 64 := by
          have := resource.resource_size.toNat_lt
          omega
        have next : (offset + data.data_size).toNat = offset.toNat + data.data_size.toNat := by
          rw [UInt64.toNat_add, Nat.mod_eq_of_lt small]
        have left : (size - data.data_size).toNat = size.toNat - data.data_size.toNat := by
          rw [UInt64.toNat_sub_of_le]
          exact UInt64.le_iff_toNat_le.mpr (by omega)
        apply wp_bind
        apply wp_solo_loc
        refine wp_mono (writeCheckpoint_kept kept₂ (Checkpoint.length_image _ _) _ _) ?_
        rintro ⟨fckpt, ok⟩ t₃ ⟨robust, published⟩
        cases ok with
        | false =>
            rw [if_neg Bool.false_ne_true, wp_ret]
            exact failed _ _ robust
        | true =>
            have kept₃ := published rfl
            rw [Checkpoint.ofImage_image] at kept₃
            rw [if_pos rfl, wp_ret]
            refine ⟨Or.inr ⟨kept₃.fits, kept₃.sound, ?_, ?_, ?_, ?_, ?_, Or.inr ?_, ?_⟩, False.elim⟩
            all_goals rw [kept₃.ledger]
            · exact header
            · exact whole
            · dsimp only
              omega
            · intro last here
              rw [counter] at here
              cases here
              rw [UInt64.lt_iff_toNat_lt]
              dsimp only
              omega
            · dsimp only
              omega
            · dsimp only
              omega
            · rfl
      · dsimp only at short broken ⊢
        rw [if_pos ⟨short, broken⟩, wp_ret]
        exact failed _ _ (fun _ => sound₁)

theorem recvRound_in_step {K : AESKeys} {mem : Memory} {ckpt path : CStr}
    {st : Stream × UInt64 × UInt64}
    (inStep : ¬ Along (Fits k) t.log ∨ InStep k resource st t) :
    Wp (soloSem (tapeSem env (sysSem lib faulty))) (fun t _ => Robust k t.log) False
      (recvRound K mem ckpt path st) t
      (LoopPost False (fun st t => ¬ Along (Fits k) t.log ∨ InStep k resource st t) (fun _ _ => 0) 0
        (fun out t => RoundsDone k out.2.2 t)) := by
  have lost : ∀ (a : _ ⊕ _) (t : SysTape lib), ¬ Along (Fits k) t.log →
      LoopPost False (fun st t => ¬ Along (Fits k) t.log ∨ InStep k resource st t) (fun _ _ => 0) 0
        (fun (out : Stream × Option Stream × Bool) t => RoundsDone k out.2.2 t) a t := by
    intro a t spoiled
    cases a with
    | inl st => exact ⟨Or.inl spoiled, False.elim⟩
    | inr out => exact ⟨fun fits => absurd fits spoiled, fun fits => absurd fits spoiled⟩
  rcases inStep with spoiled | inStep
  · exact wp_spoiled spoiled lost
  obtain ⟨fp, size, offset⟩ := st
  obtain ⟨fits, sound, header, whole, size_eq, less, offset_eq, place, saved⟩ := inStep
  dsimp only at *
  have failed : ∀ {t : SysTape lib} (fp : Stream) (fckpt : Option Stream), Robust k t.log →
      LoopPost False (fun st t => ¬ Along (Fits k) t.log ∨ InStep k resource st t) (fun _ _ => 0) 0
        (fun (out : Stream × Option Stream × Bool) t => RoundsDone k out.2.2 t)
        (.inr (fp, fckpt, false)) t :=
    fun _ _ robust => ⟨robust, fun _ wrong => nomatch wrong⟩
  unfold recvRound
  simp only [Prog.bind_eq, Prog.pure_eq]
  refine wp_solo_bind (fun _ => sound) False.elim (fun _ w₁ _ => ?_)
  have counted : Sound k (ledger t.log) (⟨.loc (.remaining size), ()⟩ : SysEvent lib) := by
    refine ⟨less, fun r here => ?_⟩
    rw [header] at here
    cases here
    exact size_eq
  have sound₁ : Along (Sound k) (Tape.after t (.remaining size) () w₁).log := ⟨counted, sound⟩
  have fits₁ : Along (Fits k) (Tape.after t (.remaining size) () w₁).log := ⟨trivial, fits⟩
  by_cases zero : size = 0
  · rw [if_pos zero, wp_ret]
    refine ⟨fun _ => sound₁, fun _ _ => ⟨resource, header, ?_, ?_, whole⟩⟩
    · subst zero
      rw [show (0 : UInt64).toNat = 0 from rfl] at size_eq
      show (ledger t.log).payload + _ = _
      omega
    · show (ledger t.log).ckpt.getD k = _
      subst zero
      rw [show (0 : UInt64).toNat = 0 from rfl] at size_eq
      rw [saved]
      apply UInt64.toNat.inj
      omega
  · rw [if_neg zero]
    have at_end := place.resolve_left zero
    refine wp_solo_recv (fun _ => sound₁) (fun data => ?_)
    cases data with
    | none => exact wp_ret.mpr (failed _ _ (fun _ => ⟨trivial, sound₁⟩))
    | some data =>
        dsimp only
        by_cases fitting : 0 < data.data_size.toNat ∧
            data.data_size.toNat ≤ min BUFFER_SIZE size.toNat
        · obtain ⟨some_bytes, few⟩ := fitting
          have fits₂ : Along (Fits k) ((Tape.after t (.remaining size) () w₁).record
              (.recv .packet) (some data)).log := by
            refine ⟨?_, fits₁⟩
            rintro _ ⟨⟩
            exact ⟨some_bytes, few⟩
          have sound₂ : Along (Sound k) ((Tape.after t (.remaining size) () w₁).record
              (.recv .packet) (some data)).log := ⟨trivial, sound₁⟩
          exact recvPacket_in_step fits₂ sound₂ header whole size_eq rfl offset_eq at_end some_bytes few
        · refine wp_spoiled (fun fits => fitting ?_) lost
          exact fits.1 size rfl

theorem recvLoop_in_step {K : AESKeys} {mem : Memory} {ckpt path : CStr}
    {st : Stream × UInt64 × UInt64} (inStep : InStep k resource st t) :
    Wp (soloSem (tapeSem env (sysSem lib faulty))) (fun t _ => Robust k t.log) False
      (Prog.iterate (recvRound K mem ckpt path) st) t (fun out t => RoundsDone k out.2.2 t) := by
  refine wp_iterate (fun st t => ¬ Along (Fits k) t.log ∨ InStep k resource st t) (fun _ _ => 0)
    (Or.inr inStep) ?_ (fun st t inStep => recvRound_in_step inStep)
  rintro st t (spoiled | inStep) fits
  · exact absurd fits spoiled
  · exact inStep.sound

/-- The first round. -/
theorem Kept.in_step (kept : Kept k ⟨0, none, some resource, none, true⟩ t)
    (covered : k ≤ resource.resource_size) {fp : Stream}
    (place : fp.pos + fp.pending.length = k.toNat ∨ resource.resource_size - k = 0) :
    InStep k resource (fp, resource.resource_size - k, k) t := by
  obtain ⟨fits, sound, same⟩ := kept
  have rest := UInt64.toNat_sub_of_le _ _ covered
  have covered := UInt64.le_iff_toNat_le.mp covered
  refine ⟨fits, sound, ?_, ?_, ?_, ?_, ?_, place.symm.imp id ?_, ?_⟩
  all_goals rw [same]
  · dsimp only
    omega
  · exact fun last impossible => nomatch impossible
  · rfl
  · exact id
  · rfl

/-! ### The function -/

/-- What a call leaves. -/
def Received (k : UInt64) (r : Int) (t : SysTape lib) : Prop :=
  Robust k t.log ∧ (Along (Fits k) t.log → r = 0 → Accomplished k (ledger t.log))

/-- The end of a call that has come to `-1`, or to `0` with everything done. -/
theorem transferCleanUp_received {l : Ledger} (kept : Kept k l t) (fp fckpt : Option Stream)
    {status : Int} (done : status = 0 → Accomplished k l) :
    Wp (soloSem (tapeSem env (sysSem lib faulty))) (fun t _ => Robust k t.log) False
      (transferCleanUp fp fckpt status).loc t (Received k) := by
  apply wp_solo_loc
  have returns : Wp (tapeSem env (sysSem lib faulty)) (fun _ _ => True) False
      (transferCleanUp fp fckpt status) t (fun r _ => r = status ∨ r = -1) :=
    transferCleanUp_returns (fun _ _ _ => trivial) fp fckpt status
  refine wp_mono (wp_guard_mono (wp_and (kept.program (transferCleanUp_quiet fp fckpt status)) returns)
    (fun _ _ both => both.1)) ?_
  rintro r t' ⟨kept, returned⟩
  refine ⟨kept.robust, fun _ zero => ?_⟩
  rw [kept.ledger]
  rcases returned with rfl | rfl
  · exact done zero
  · cases zero

/-- The end of a call that has left the loop. -/
theorem transferCleanUp_done {ok : Bool} (done : RoundsDone k ok t) (fp fckpt : Option Stream) :
    Wp (soloSem (tapeSem env (sysSem lib faulty))) (fun t _ => Robust k t.log) False
      (transferCleanUp fp fckpt (if ok = true then 0 else -1)).loc t (Received k) := by
  by_cases fits : Along (Fits k) t.log
  · have kept : Kept k (ledger t.log) t := ⟨fits, done.1 fits, rfl⟩
    apply transferCleanUp_received kept
    intro zero
    cases ok with
    | true => exact done.2 fits rfl
    | false => cases zero
  · refine wp_spoiled fits (fun r t' spoiled => ?_)
    exact ⟨fun wrong => absurd wrong spoiled, fun wrong => absurd wrong spoiled⟩

theorem recvfile_received (mem : Memory) (K : AESKeys) (zip ckpt path : CStr) (w : World) :
    Wp (soloSem (tapeSem env (sysSem lib faulty))) (fun t _ => Robust k t.log) False
      (recvfile mem zip K k ckpt path) ⟨w, []⟩ (Received k) := by
  have kept : Kept k ⟨0, none, none, none, true⟩ (⟨w, []⟩ : SysTape lib) := ⟨trivial, trivial, rfl⟩
  have failed : ∀ {l : Ledger}, (-1 : Int) = 0 → Accomplished k l := fun wrong => by cases wrong
  unfold recvfile
  simp only [Prog.bind_eq]
  apply wp_bind
  apply wp_solo_loc
  refine wp_mono (wp_guard_mono (wp_and (kept.program (openPartial_quiet zip k))
    (openPartial_position zip)) (fun _ _ both => both.1)) ?_
  rintro ⟨fp, moved⟩ t₁ ⟨kept, placed⟩
  cases moved with
  | false =>
      rw [if_neg Bool.false_ne_true]
      exact transferCleanUp_received kept _ _ failed
  | true =>
      rw [if_pos rfl]
      cases fp with
      | none => exact transferCleanUp_received kept _ _ failed
      | some fp =>
          have placed := placed rfl fp rfl
          dsimp only
          refine wp_solo_recv kept.robust (fun resource => ?_)
          cases resource with
          | none =>
              have kept : Kept k ⟨0, none, none, none, true⟩ (t₁.record (.recv .resource) none) :=
                ⟨⟨trivial, kept.fits⟩, ⟨trivial, kept.sound⟩, kept.ledger⟩
              exact transferCleanUp_received kept _ _ failed
          | some resource =>
              dsimp only
              by_cases fits : k ≤ resource.resource_size ∧
                  (k.toNat ≤ 2 ^ 31 ∨ k = resource.resource_size)
              · have kept : Kept k ⟨0, none, some resource, none, true⟩
                    (t₁.record (.recv .resource) (some resource)) :=
                  ⟨⟨fits, kept.fits⟩, ⟨trivial, kept.sound⟩,
                    congrArg (Ledger.enter · _) kept.ledger⟩
                refine wp_solo_bind kept.robust False.elim (fun ok w₂ _ => ?_)
                have kept := kept.quiet (e := .setRcvTimeout MAX_IO_TIME_OUT) trivial ok w₂
                cases ok with
                | false => exact transferCleanUp_received kept _ _ failed
                | true =>
                    rw [if_pos rfl]
                    apply wp_bind
                    refine wp_mono (recvLoop_in_step (kept.in_step fits.1 (fits.2.imp ?_ ?_))) ?_
                    · intro small
                      exact placed.trans (counterStop_of_le small)
                    · rintro rfl
                      exact UInt64.sub_self _
                    · rintro ⟨fp, fckpt, ok⟩ t₃ done
                      exact transferCleanUp_done done _ _
              · refine wp_spoiled (fun wrong => fits wrong.1) (fun r t' spoiled => ?_)
                exact ⟨fun wrong => absurd wrong spoiled, fun wrong => absurd wrong spoiled⟩

end Loop

/-! ### Two transfers -/

/-- A call with offset `0` on a machine where everything works, against a peer that sends a header of
    `size` bytes and one packet that claims `data_size`. -/
def onePacketRun (size data_size : UInt64) : P reference Int × SysTape reference :=
  Prog.play (Player.solo (machine reference False).onTape)
    ([.loc .works, .frame .resource ⟨size, zeros _, zeros _⟩] ++ List.replicate 3 (.loc .works) ++
      [.frame .packet ⟨zeros _, data_size⟩] ++ List.replicate 14 (.loc .works))
    (recvfile smallSite.mem [97] smallSite.K 0 [99] [97], ⟨singleFile (letter 98) [], []⟩)

theorem reach_onePacketRun (size data_size : UInt64) :
    Prog.Reach (soloSem (tapeSem still (sysSem reference False)))
      (recvfile smallSite.mem [97] smallSite.K 0 [99] [97], ⟨singleFile (letter 98) [], []⟩)
      (onePacketRun size data_size) :=
  reach_play _ _ _

/-- The counter is no smaller than at the last round. -/
def wrapped : List (SysEvent lib) → Bool
  | ⟨.loc (.remaining size), _⟩ :: earlier => (ledger earlier).remaining.any (· ≤ size)
  | _ => false

theorem not_sound_of_wrapped {k : UInt64} {log : List (SysEvent lib)} (wraps : wrapped log = true) :
    ¬ Along (Sound k) log := by
  intro sound
  unfold wrapped at wraps
  split at wraps
  · obtain ⟨last, here, more⟩ := (Option.any_eq_true _ _).mp wraps
    exact UInt64.not_lt.mpr (of_decide_eq_true more) (sound.1.1 last here)
  · cases wraps

end Filerail
