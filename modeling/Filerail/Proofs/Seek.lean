/-
Module: Filerail.Proofs.Seek
Layer: Proofs
Purpose: The move of the partial file to the resume offset. The code counts bytes with a 32-bit `int`
  and compares it with a 64-bit unsigned offset; `counterStop` is where that comparison ends the
  loop. It is the offset itself up to `2 ^ 31` and less than the offset beyond.
Imports: Filerail.Proofs.Working, Filerail.Proofs.Packing
Main exports: counterStop, openPartial_seeks, SeeksRight, seeks_right_iff
-/
import Filerail.Proofs.Working
import Filerail.Proofs.Packing

namespace Filerail

open FileStore ProgramLogic

variable {lib : Lib}

/-! ### The counter -/

/-- The number of bytes after which the counter no longer reads as less than the offset. -/
def counterStop (k : Nat) : Nat :=
  if k ≤ 2 ^ 31 then k
  else if k ≤ 2 ^ 64 - 2 ^ 31 then 2 ^ 31
  else k - (2 ^ 64 - 2 ^ 32)

theorem counterStop_of_le {k : Nat} (small : k ≤ 2 ^ 31) : counterStop k = k :=
  if_pos small

theorem counterStop_le (k : Nat) : counterStop k ≤ k := by
  unfold counterStop
  split
  · omega
  · split <;> omega

theorem counterStop_lt {k : Nat} (large : 2 ^ 31 < k) : counterStop k < k := by
  unfold counterStop
  split
  · omega
  · split <;> omega

/-- The counter after `n` bytes, compared as the code compares it. -/
theorem counter_reads {n k : Nat} (bound : k < 2 ^ 64) (n_le : n ≤ counterStop k) :
    ((BitVec.ofNat 32 n).signExtend 64).toNat < k ↔ n < counterStop k := by
  have n_lt : n < 2 ^ 32 := by
    unfold counterStop at n_le
    split at n_le
    · omega
    · split at n_le <;> omega
  have value : ((BitVec.ofNat 32 n).signExtend 64).toNat =
      if n < 2 ^ 31 then n else n + (2 ^ 64 - 2 ^ 32) := by
    rw [BitVec.toNat_signExtend, BitVec.toNat_setWidth, BitVec.toNat_ofNat, BitVec.msb_eq_decide,
      BitVec.toNat_ofNat]
    by_cases top : n < 2 ^ 31
    · have small : ¬ 2 ^ (32 - 1) ≤ n % 2 ^ 32 := by omega
      simp only [small, decide_false, Bool.false_eq_true, if_false, if_pos top]
      omega
    · have big : 2 ^ (32 - 1) ≤ n % 2 ^ 32 := by omega
      simp only [big, decide_true, if_true, if_neg top]
      omega
  rw [value]
  unfold counterStop at n_le ⊢
  split at n_le
  · rename_i small
    rw [if_pos small]
    split <;> omega
  · rename_i large
    rw [if_neg large]
    split at n_le
    · rename_i middle
      rw [if_pos middle]
      split <;> omega
    · rename_i top
      rw [if_neg top]
      split <;> omega

/-! ### The loop -/

section Loop

variable {total : Prop} {guard : SysTape lib → Option (Sys lib.md5.Ctx) → Prop} {w : World}

/-- No call is made on a stream that was not opened. -/
def Alive (_ : SysTape lib) (e : Option (Sys lib.md5.Ctx)) : Prop :=
  e ≠ some .crash

/-- The seek has passed `n` bytes of the file `i`. -/
def Passed (w : World) (i : Nat) (B : List UInt8) (k : UInt64) (st : BitVec 32 × Option Stream)
    (t : SysTape lib) : Prop :=
  ∃ n, n ≤ counterStop k.toNat ∧ n ≤ B.length ∧ t.world = w ∧
    st = (.ofNat 32 n, some { Stream.opened i with pos := n })

/-- The end of the seek: at the place where the counter stops it, or at the end of the file. -/
def Sought (w : World) (i : Nat) (B : List UInt8) (k : UInt64) (out : Option Stream × Bool)
    (t : SysTape lib) : Prop :=
  t.world = w ∧ ((counterStop k.toNat ≤ B.length ∧
      out = (some { Stream.opened i with pos := counterStop k.toNat }, true)) ∨
    (B.length < counterStop k.toNat ∧ ∃ fp, out = (some fp, false) ∧ fp.pending = []))

theorem seekRound_passes {i : Nat} {B : List UInt8} (data : w.fs.data i = B) {k : UInt64}
    {st : BitVec 32 × Option Stream} {t : SysTape lib} (passed : Passed w i B k st t) :
    Wp (Alone lib) Alive total (seekRound k st) t
      (LoopPost total (Passed w i B k) (fun st _ => B.length - (st.2.elim 0 Stream.pos))
        (B.length - (st.2.elim 0 Stream.pos)) (Sought w i B k)) := by
  obtain ⟨n, below, inside, rfl, rfl⟩ := passed
  unfold seekRound
  simp only [Prog.bind_eq, Prog.pure_eq, counter_reads k.toNat_lt below]
  by_cases more : n < counterStop k.toNat
  · rw [if_pos more]
    refine wp_does_bind (by simp [Alive]) (fun _ => does_answers _ _ (by simp)) (fun r w' does => ?_)
    rcases does with ⟨c, byte, rfl, rfl⟩ | ⟨past, rfl, rfl⟩
    · have read : n < B.length := by
        rw [← data]
        exact (List.getElem?_eq_some_iff.mp byte).1
      refine wp_ret.mpr ⟨⟨n + 1, more, read, rfl, ?_⟩, fun _ => ?_⟩
      · rw [BitVec.ofNat_add]
        rfl
      · show B.length - (n + 1) < B.length - n
        omega
    · have ended : B.length ≤ n := by
        rw [← data]
        exact List.getElem?_eq_none_iff.mp past
      exact wp_ret.mpr ⟨rfl, Or.inr ⟨by omega, _, rfl, rfl⟩⟩
  · rw [if_neg more, wp_ret]
    have reached : n = counterStop k.toNat := by omega
    exact ⟨rfl, Or.inl ⟨reached ▸ inside, by rw [← reached]⟩⟩

/-- Opening the partial file for an offset other than `0` comes to an end, at the place where the
    counter stops or at the end of the file. -/
theorem openPartial_seeks {path : CStr} {i : Nat} (file : w.fs.node (w.target path) = some (.file i))
    {k : UInt64} (resumes : k ≠ 0) {t : SysTape lib} (here : t.world = w) :
    Wp (Alone lib) Alive True (openPartial path k) t (Sought w i (w.fs.data i) k) := by
  unfold openPartial
  simp only [Prog.bind_eq]
  rw [if_neg resumes]
  refine wp_does_bind (by simp [Alive]) (fun _ => does_answers _ _ (by simp)) (fun r w' does => ?_)
  rw [here] at does
  rcases does with ⟨j, opened, rfl, rfl⟩ | ⟨_, no_file, _⟩
  · rw [file] at opened
    cases opened
    refine wp_iterate (Passed w' i (w'.fs.data i) k) _ ⟨0, Nat.zero_le _, Nat.zero_le _, rfl, rfl⟩
      (fun _ _ _ => by simp [Alive]) (fun st t passed => seekRound_passes rfl passed)
  · exact absurd file (no_file i)

end Loop

/-! ### When the seek is right -/

/-- The partial file is moved to the offset if it has that many bytes; else, or if it cannot be
    opened, the function returns `-1`. No call is made on a stream that was not opened. -/
structure SeeksRight (lib : Lib) (mem : Memory) (K : AESKeys) (ckpt path : CStr) (k : UInt64)
    (w : World) : Prop where
  reaches : ∀ B, w.fs.fileAt (w.target path) = some B → k.toNat ≤ B.length →
    Wp (Alone lib) Alive True (openPartial path k) ⟨w, []⟩
      (fun out _ => out.2 = true ∧ ∃ fp, out.1 = some fp ∧ fp.pos = k.toNat)
  refuses : (∀ B, w.fs.fileAt (w.target path) = some B → B.length < k.toNat) →
    Wp (soloSem (Alone lib)) (fun _ a => a ≠ some (.loc .crash)) True
      (recvfile mem path K k ckpt path) ⟨w, []⟩ (fun r _ => r = -1)

section Right

variable {mem : Memory} {K : AESKeys} {ckpt path : CStr} {k : UInt64} {w : World}

/-- The end of a transfer in which all calls succeed. -/
theorem transferCleanUp_alone {guard : SysTape lib → Option (Sys lib.md5.Ctx) → Prop}
    (allowed : ∀ t e, e ≠ some .crash → guard t e) (fp : Stream) (status : Int) (t : SysTape lib) :
    Wp (Alone lib) guard True (transferCleanUp (some fp) none status) t (fun r _ => r = status) := by
  unfold transferCleanUp closeIf
  simp only [Prog.bind_eq, Prog.pure_eq, Prog.ret_bind]
  refine wp_does_bind (allowed _ _ (by simp)) (fun _ => does_answers _ _ (by simp)) (fun _ w' _ => ?_)
  refine wp_does_bind (allowed _ _ (by simp)) (fun _ => does_answers _ _ (by simp))
    (fun r w' does => ?_)
  obtain ⟨rfl, _⟩ := does
  exact wp_ret.mpr rfl

/-- A partial file that cannot be opened is read through a null pointer. -/
theorem openPartial_crashes (resumes : k ≠ 0) (absent : w.fs.fileAt (w.target path) = none) :
    ∃ next t, Prog.Reach (Alone lib) (openPartial path k, ⟨w, []⟩) (.call .crash next, t) := by
  have no_file : ∀ i, w.fs.node (w.target path) ≠ some (.file i) := by
    intro i file
    rw [Store.fileAt_of_node file] at absent
    cases absent
  have some_bytes : ((0 : BitVec 32).signExtend 64).toNat < k.toNat :=
    Nat.pos_of_ne_zero (fun zero => resumes (UInt64.toNat.inj zero))
  have round : @seekRound lib k (0, none) = crash := by
    unfold seekRound
    exact if_pos some_bytes
  have unopened : Does lib w (.fopen path .rPlusB) none w :=
    Or.inr ⟨rfl, no_file, rfl⟩
  unfold openPartial
  simp only [Prog.bind_eq]
  rw [if_neg resumes]
  have rounds : Prog.Reach (Alone lib)
      (Prog.iterate (@seekRound lib k) (0, none), Tape.after ⟨w, []⟩ (.fopen path .rPlusB) none w)
      ((@seekRound lib k (0, none)).bind (Prog.resume (seekRound k) .ret), _) :=
    .single .loop
  rw [round] at rounds
  exact ⟨_, _, .head (step_does unopened) rounds⟩

/-- Behind a header that leaves nothing to transfer the function returns `0`. -/
theorem recvfile_empty (fp : Stream) (t : SysTape lib) :
    Wp (soloSem (Alone lib)) (fun _ _ => True) True
      (Prog.bind (Prog.loc (setTimeout MAX_IO_TIME_OUT)) (fun ok =>
        if ok = true then
          Prog.bind (Prog.iterate (recvRound K mem ckpt path) (fp, k - k, k)) (fun out =>
            (transferCleanUp (some out.1) out.2.1 (if out.2.2 = true then 0 else -1)).loc)
        else (transferCleanUp (some fp) none (-1)).loc)) t (fun r _ => r = 0) := by
  refine wp_only_solo_bind (only_setRcvTimeout _) trivial ?_
  rw [if_pos rfl, iterate_bind]
  apply wp_unroll trivial
  unfold recvRound
  simp only [Prog.bind_eq, Prog.pure_eq, Prog.bind_assoc]
  refine wp_only_solo_bind (only_remaining _) trivial ?_
  rw [if_pos (UInt64.sub_self k)]
  exact wp_solo_loc (transferCleanUp_alone (fun _ _ _ => trivial) fp 0 _)

/-- A partial file that cannot be opened is not refused. -/
theorem not_right_of_missing (resumes : k ≠ 0) (absent : w.fs.fileAt (w.target path) = none) :
    ¬ SeeksRight lib mem K ckpt path k w := by
  intro right
  have wp := right.refuses (fun B here => by rw [absent] at here; cases here)
  obtain ⟨next, t, run⟩ := @openPartial_crashes lib path k w resumes absent
  exact absurd rfl (wp.sound _ _ (Prog.reach_bind (reach_solo_loc run)))

/-- The counter stops too early in a file that goes on behind that place. -/
theorem not_right_of_early {B : List UInt8} (content : w.fs.fileAt (w.target path) = some B)
    (large : 2 ^ 31 < k.toNat) (goes_on : counterStop k.toNat ≤ B.length) :
    ¬ SeeksRight lib mem K ckpt path k w := by
  intro right
  obtain ⟨i, file, rfl⟩ := Store.fileAt_eq_some_iff.mp content
  have resumes : k ≠ 0 := by
    rintro rfl
    exact absurd large (by decide)
  have early := counterStop_lt large
  have seeks := @openPartial_seeks lib w path i file k resumes ⟨w, []⟩ rfl
  obtain ⟨out, t, run⟩ := (seeks.ends trivial).returns
  obtain ⟨_, ⟨_, rfl⟩ | ⟨short, _⟩⟩ := seeks.sound _ _ run
  · by_cases whole : k.toNat ≤ (w.fs.data i).length
    · obtain ⟨_, fp, same, pos⟩ := (right.reaches _ content whole).sound _ _ run
      cases same
      exact absurd pos (Nat.ne_of_lt early)
    · -- the peer's header leaves nothing to transfer, and the function returns `0`
      have wp := right.refuses (fun B here => by rw [content] at here; cases here; omega)
      have wp := wp.after (reach_solo_loc run)
      have wp := (wp_perform_bind.mp wp).2.2 (some ⟨k, pad _ [], pad _ []⟩) _ rfl
      obtain ⟨r, t', rest⟩ := ((@recvfile_empty lib _ _ _ _ _ _ _).ends trivial).returns
      have zero := (recvfile_empty _ _).sound _ _ rest
      have minus := wp.sound _ _ rest
      exact absurd ((zero : r = 0).symm.trans minus) (by decide)
  · exact absurd goes_on (Nat.not_le.mpr short)

/-- The seek is right exactly when the partial file can be opened and the counter does not stop inside
    it, in front of the offset. -/
theorem seeks_right_iff (resumes : k ≠ 0) :
    SeeksRight lib mem K ckpt path k w ↔
      ∃ B, w.fs.fileAt (w.target path) = some B ∧
        (k.toNat ≤ 2 ^ 31 ∨ B.length < counterStop k.toNat) := by
  constructor
  · intro right
    cases content : w.fs.fileAt (w.target path) with
    | none => exact absurd right (not_right_of_missing resumes content)
    | some B =>
        refine ⟨B, rfl, ?_⟩
        by_contra wrong
        rw [not_or, Nat.not_le, Nat.not_lt] at wrong
        exact not_right_of_early content wrong.1 wrong.2 right
  · rintro ⟨B, content, right⟩
    obtain ⟨i, file, rfl⟩ := Store.fileAt_eq_some_iff.mp content
    have seeks := @openPartial_seeks lib w path i file k resumes ⟨w, []⟩ rfl
    constructor
    · intro B here covered
      rw [content] at here
      cases here
      refine wp_mono seeks ?_
      rintro out t ⟨_, ⟨inside, rfl⟩ | ⟨short, _⟩⟩
      · rcases right with small | ends
        · exact ⟨rfl, _, rfl, counterStop_of_le small⟩
        · exact absurd inside (Nat.not_le.mpr ends)
      · have early := counterStop_le k.toNat
        omega
    · intro short
      have short := short _ content
      unfold recvfile
      simp only [Prog.bind_eq]
      apply wp_bind
      refine wp_mono (wp_solo_loc (wp_guard_mono seeks (fun _ e alive same => ?_))) ?_
      · cases e with
        | none => cases same
        | some e => cases same; exact alive rfl
      · rintro out t ⟨_, ⟨reached, rfl⟩ | ⟨_, fp, rfl, _⟩⟩
        · rcases right with small | ends
          · rw [counterStop_of_le small] at reached
            exact absurd reached (Nat.not_le.mpr short)
          · exact absurd reached (Nat.not_le.mpr ends)
        · refine wp_solo_loc (transferCleanUp_alone (fun _ e alive same => ?_) _ _ _)
          cases e with
          | none => cases same
          | some e => cases same; exact alive rfl

end Right

/-- A world whose root holds one file. -/
def singleFile (name : Name) (content : List UInt8) : World where
  fs := tree [] [([name], content)]
  cwd := []

/-- A seek in a file that is long enough. -/
theorem seeks_right_small :
    SeeksRight reference smallSite.mem smallSite.K [99] [97] 1 (singleFile (letter 97) [104]) :=
  (seeks_right_iff (by decide)).mpr ⟨[104], by decide +kernel, Or.inl (by decide)⟩

theorem singleFile_content (content : List UInt8) :
    (singleFile (letter 97) content).fs.fileAt
      ((singleFile (letter 97) content).target [97]) = some content := by
  rfl

/-- A partial file that is gone, and one that is longer than the counter can count. -/
theorem seek_goes_wrong :
    ¬ SeeksRight reference smallSite.mem smallSite.K [99] [98] 1 (singleFile (letter 97) [104]) ∧
      ¬ SeeksRight reference smallSite.mem smallSite.K [99] [97] 2147483649
        (singleFile (letter 97) (List.replicate 2147483649 0)) := by
  constructor
  · exact not_right_of_missing (by decide) (by decide +kernel)
  · apply not_right_of_early (singleFile_content _) (by decide)
    rw [List.length_replicate]
    exact counterStop_le _

end Filerail
