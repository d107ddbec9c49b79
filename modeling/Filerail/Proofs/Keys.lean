/-
Module: Filerail.Proofs.Keys
Layer: Proofs
Purpose: The reader of the key file against the format the documentation gives. The loop reads the
  bytes of both arrays from every third position on, whatever stands between them, and stays inside
  the arrays; a file of the documented format is read as written, and every other file of its size is
  taken for one.
Imports: Filerail.Core.Keys, Filerail.Core.Reference, Filerail.Proofs.Working
Main exports: Documented, keysOf, readAESKeys_wp, formatKeys, readAESKeys_exact_iff
-/
import Filerail.Core.Keys
import Filerail.Core.Reference
import Filerail.Proofs.Working

namespace Filerail

open FileStore ProgramLogic

variable {lib : Lib}

/-! ### The documented format -/

/-- The value of a hexadecimal digit of either case. -/
def digitValue (c : UInt8) : Option UInt8 :=
  if 48 ≤ c ∧ c ≤ 57 then some (c - 48)
  else if 65 ≤ c ∧ c ≤ 70 then some (c - 55)
  else if 97 ≤ c ∧ c ≤ 102 then some (c - 87)
  else none

/-- The byte a pair of digits stands for. -/
def pairValue (pair : UInt8 × UInt8) : Option UInt8 := do
  let high ← digitValue pair.1
  let low ← digitValue pair.2
  return high * 16 + low

/-- A line of pairs, separated by one space each and ended by a newline. -/
def keyLine : List (UInt8 × UInt8) → List UInt8
  | [] => []
  | [pair] => [pair.1, pair.2, 10]
  | pair :: next :: rest => pair.1 :: pair.2 :: 32 :: keyLine (next :: rest)

/-- A key file as it is documented: a line for the vector and a line for the key. -/
def Documented (content : List UInt8) (K : AESKeys) : Prop :=
  ∃ iv key : List (UInt8 × UInt8), iv.map pairValue = K.iv.toList.map some ∧
    key.map pairValue = K.key.toList.map some ∧ content = keyLine iv ++ keyLine key

@[simp] theorem length_keyLine (pairs : List (UInt8 × UInt8)) :
    (keyLine pairs).length = 3 * pairs.length := by
  fun_induction keyLine pairs with
  | case1 => rfl
  | case2 pair => rfl
  | case3 pair next rest ih =>
      simp only [List.length_cons] at ih ⊢
      omega

/-- The pair at an index of a line. -/
theorem getElem?_keyLine (pairs : List (UInt8 × UInt8)) (j : Nat) :
    (keyLine pairs)[3 * j]? = pairs[j]?.map Prod.fst ∧
      (keyLine pairs)[3 * j + 1]? = pairs[j]?.map Prod.snd := by
  fun_induction keyLine pairs generalizing j with
  | case1 => exact ⟨rfl, rfl⟩
  | case2 pair =>
      cases j with
      | zero => exact ⟨rfl, rfl⟩
      | succ j =>
          rw [show 3 * (j + 1) = 3 * j + 3 by omega]
          exact ⟨rfl, rfl⟩
  | case3 pair next rest ih =>
      cases j with
      | zero => exact ⟨rfl, rfl⟩
      | succ j =>
          rw [show 3 * (j + 1) = 3 * j + 3 by omega]
          exact ih j

/-! ### What the loop computes -/

/-- The byte the code computes from the two characters at the start of a group of three. -/
def groupByte (content : List UInt8) (j : Nat) : UInt8 :=
  (charToHex (content.getD (3 * j) 0) <<< 4) ||| charToHex (content.getD (3 * j + 1) 0)

/-- The keys the code reads from a file of the right size. -/
def keysOf (content : List UInt8) : AESKeys where
  iv := List.Vector.ofFn (fun j => groupByte content j)
  key := List.Vector.ofFn (fun j => groupByte content (AES_KEY_SIZE + j))

/-- What the code takes for the value of a character is its value as a digit. -/
theorem charToHex_digit (c : UInt8) :
    digitValue c = none ∨ (digitValue c = some (charToHex c) ∧ charToHex c < 16) := by
  revert c
  apply byte_forall
  decide +kernel

theorem shiftLeft_or {high low : UInt8} (high_lt : high < 16) (low_lt : low < 16) :
    (high <<< 4) ||| low = high * 16 + low := by
  have every : ∀ h l : Fin 16, (UInt8.ofNat h.1 <<< 4) ||| UInt8.ofNat l.1 =
      UInt8.ofNat h.1 * 16 + UInt8.ofNat l.1 := by
    decide +kernel
  have here := every ⟨high.toNat, UInt8.lt_iff_toNat_lt.mp high_lt⟩
    ⟨low.toNat, UInt8.lt_iff_toNat_lt.mp low_lt⟩
  simpa only [UInt8.ofNat_toNat] using here

/-- A pair of digits is read as the byte it stands for. -/
theorem pairValue_eq {pair : UInt8 × UInt8} {b : UInt8} (value : pairValue pair = some b) :
    (charToHex pair.1 <<< 4) ||| charToHex pair.2 = b := by
  obtain ⟨high, high_value, rest⟩ := Option.bind_eq_some_iff.mp value
  obtain ⟨low, low_value, same⟩ := Option.bind_eq_some_iff.mp rest
  cases same
  rcases charToHex_digit pair.1 with no_digit | ⟨high_digit, high_lt⟩
  · rw [no_digit] at high_value
    cases high_value
  rcases charToHex_digit pair.2 with no_digit | ⟨low_digit, low_lt⟩
  · rw [no_digit] at low_value
    cases low_value
  rw [high_digit] at high_value
  rw [low_digit] at low_value
  cases high_value
  cases low_value
  exact shiftLeft_or high_lt low_lt

theorem length_of_documented {content : List UInt8} {K : AESKeys} (documented : Documented content K) :
    content.length = KEY_FILE_SIZE := by
  obtain ⟨iv, key, iv_value, key_value, rfl⟩ := documented
  have iv_length := congrArg List.length iv_value
  have key_length := congrArg List.length key_value
  simp only [List.length_map, List.Vector.toList_length] at iv_length key_length
  rw [List.length_append, length_keyLine, length_keyLine, iv_length, key_length]
  rfl

/-- A line of pairs is read as the block it stands for, wherever it starts in the file. -/
theorem groupByte_line (before after : List UInt8) {k : Nat} {pairs : List (UInt8 × UInt8)}
    {block : AesBlock} (start : before.length = 3 * k)
    (value : pairs.map pairValue = block.toList.map some) (j : Fin AES_KEY_SIZE) :
    groupByte (before ++ (keyLine pairs ++ after)) (k + j) = block.get j := by
  have length := congrArg List.length value
  simp only [List.length_map, List.Vector.toList_length] at length
  have inside : j.1 < pairs.length := length.symm ▸ j.2
  have byte : pairValue pairs[j.1] = some (block.get j) := by
    have here := congrArg (fun xs : List (Option UInt8) => xs[j.1]?) value
    simp only [List.getElem?_map, List.getElem?_eq_getElem inside, Option.map_some] at here
    rw [List.getElem?_eq_getElem (by rw [List.Vector.toList_length]; exact j.2)] at here
    simp only [Option.map_some, Option.some.injEq] at here
    rw [here, List.Vector.get_eq_get_toList]
    rfl
  have read : ∀ i < 3 * pairs.length,
      (before ++ (keyLine pairs ++ after)).getD (3 * k + i) 0 = ((keyLine pairs)[i]?).getD 0 := by
    intro i bound
    rw [List.getD_eq_getElem?_getD, List.getElem?_append_right (by omega), start,
      Nat.add_sub_cancel_left, List.getElem?_append_left (by rw [length_keyLine]; exact bound)]
  obtain ⟨first, second⟩ := getElem?_keyLine pairs j
  rw [List.getElem?_eq_getElem inside, Option.map_some] at first second
  unfold groupByte
  rw [Nat.mul_add, read _ (by omega), Nat.add_assoc, read _ (by omega), first, second]
  exact pairValue_eq byte

/-- The code reads from a documented file what is written there. -/
theorem keysOf_documented {content : List UInt8} {K : AESKeys} (documented : Documented content K) :
    keysOf content = K := by
  obtain ⟨iv, key, iv_value, key_value, rfl⟩ := documented
  have iv_length := congrArg List.length iv_value
  simp only [List.length_map, List.Vector.toList_length] at iv_length
  obtain ⟨iv_block, key_block⟩ := K
  unfold keysOf
  congr 1
  · apply List.Vector.ext
    intro j
    have byte := groupByte_line [] (keyLine key) (k := 0) rfl iv_value j
    rw [List.Vector.get_ofFn]
    rwa [List.nil_append, Nat.zero_add] at byte
  · apply List.Vector.ext
    intro j
    have start : (keyLine iv).length = 3 * AES_KEY_SIZE := by
      rw [length_keyLine, iv_length]
    have byte := groupByte_line _ [] start key_value j
    rw [List.Vector.get_ofFn]
    rwa [List.append_nil] at byte

/-! ### The loop -/

/-- The state of the loop after some rounds: it stands at a group of three, and the bytes of the
    groups before it are stored. -/
structure KeyRead (i : Nat) (content : List UInt8) (rounds : Nat) (st : KeyState) : Prop where
  bound : rounds ≤ 2 * AES_KEY_SIZE
  second : st.2.1 = decide (AES_KEY_SIZE ≤ rounds)
  idx : st.2.2.1 = rounds % AES_KEY_SIZE
  stream : st.2.2.2 = ⟨i, 3 * rounds, [], false⟩
  iv : ∀ j : Fin AES_KEY_SIZE, j < rounds → st.1.iv.get j = groupByte content j
  key : ∀ j : Fin AES_KEY_SIZE, AES_KEY_SIZE + j < rounds →
    st.1.key.get j = groupByte content (AES_KEY_SIZE + j)

/-- Storing the byte of the next group stays inside the arrays. -/
theorem KeyRead.store {i : Nat} {content : List UInt8} {rounds : Nat} {K : AESKeys} {second : Bool}
    {idx : Nat} {fp : Stream} (read : KeyRead i content rounds (K, second, idx, fp))
    (more : rounds < 2 * AES_KEY_SIZE) :
    ∃ K', K.store second idx (groupByte content rounds) = some K' ∧
      (∀ j : Fin AES_KEY_SIZE, j < rounds + 1 → K'.iv.get j = groupByte content j) ∧
      ∀ j : Fin AES_KEY_SIZE, AES_KEY_SIZE + j < rounds + 1 →
        K'.key.get j = groupByte content (AES_KEY_SIZE + j) := by
  have idx_eq : idx = rounds % AES_KEY_SIZE := read.idx
  have inside : idx < AES_KEY_SIZE := by
    rw [idx_eq]
    exact Nat.mod_lt _ (by decide)
  unfold AESKeys.store
  rw [dif_pos inside]
  by_cases late : AES_KEY_SIZE ≤ rounds
  · have yes : second = true := read.second.trans (decide_eq_true late)
    have here : AES_KEY_SIZE + idx = rounds := by
      rw [idx_eq, Nat.mod_eq_sub_mod late, Nat.mod_eq_of_lt (by omega)]
      omega
    refine ⟨_, if_pos yes, ?_, ?_⟩
    · intro j _
      exact read.iv j (Nat.lt_of_lt_of_le j.2 late)
    · intro j bound
      show (K.key.set ⟨idx, inside⟩ _).get j = _
      by_cases last : (⟨idx, inside⟩ : Fin AES_KEY_SIZE) = j
      · rw [← last, List.Vector.get_set_same]
        exact congrArg _ here.symm
      · rw [List.Vector.get_set_of_ne last]
        have other : idx ≠ j := fun same => last (Fin.ext same)
        exact read.key j (by omega)
  · have no : ¬ second = true := by
      rw [show second = decide (AES_KEY_SIZE ≤ rounds) from read.second, decide_eq_true_iff]
      exact late
    have here : idx = rounds := by
      rw [idx_eq, Nat.mod_eq_of_lt (by omega)]
    refine ⟨_, if_neg no, ?_, ?_⟩
    · intro j bound
      show (K.iv.set ⟨idx, inside⟩ _).get j = _
      by_cases last : (⟨idx, inside⟩ : Fin AES_KEY_SIZE) = j
      · rw [← last, List.Vector.get_set_same]
        exact congrArg _ here.symm
      · rw [List.Vector.get_set_of_ne last]
        have other : idx ≠ j := fun same => last (Fin.ext same)
        exact read.iv j (by omega)
    · intro j bound
      omega

theorem KeyRead.done {i : Nat} {content : List UInt8} {st : KeyState}
    (read : KeyRead i content (2 * AES_KEY_SIZE) st) : st.1 = keysOf content := by
  obtain ⟨⟨iv, key⟩, rest⟩ := st
  show AESKeys.mk iv key = ⟨_, _⟩
  congr 1
  · apply List.Vector.ext
    intro j
    rw [List.Vector.get_ofFn]
    exact read.iv j (Nat.lt_of_lt_of_le j.2 (by decide))
  · apply List.Vector.ext
    intro j
    rw [List.Vector.get_ofFn]
    exact read.key j (by have := j.2; omega)

section Reader

variable {guard : SysTape lib → Option (Sys lib.md5.Ctx) → Prop} {w : World} {i : Nat}
  {content : List UInt8}

/-- What two bytes are read at a group. -/
theorem only_group (file : w.fs.data i = content) {pos : Nat} (inside : pos + 1 < content.length) :
    Only lib w (.fread ⟨i, pos, [], false⟩ 2)
      ([content[pos], content[pos + 1]], ⟨i, pos + 2, [], false⟩) w := by
  have two : (content.drop pos).take 2 = [content[pos], content[pos + 1]] := by
    rw [List.drop_eq_getElem_cons (by omega), List.drop_eq_getElem_cons (by omega)]
    rfl
  have read : Only lib w (.fread ⟨i, pos, [], false⟩ 2) _ w := only_fread _ 2
  simp only [file, two] at read
  exact read

/-- At the end of the file there are none. -/
theorem only_end (file : w.fs.data i = content) {pos : Nat} (past : content.length ≤ pos) :
    Only lib w (.fread ⟨i, pos, [], false⟩ 2) ([], ⟨i, pos, [], false⟩) w := by
  have read : Only lib w (.fread ⟨i, pos, [], false⟩ 2) _ w := only_fread _ 2
  simp only [file, List.drop_of_length_le past] at read
  exact read

/-- One round reads one group, or finds the end of the file. -/
theorem readKeyRound_wp (all : ∀ t e, guard t e) (file : w.fs.data i = content)
    (size : content.length = KEY_FILE_SIZE) {rounds : Nat} {st : KeyState}
    (read : KeyRead i content rounds st) {t : SysTape lib} (here : t.world = w) :
    Wp (Alone lib) guard True (readKeyRound st) t
      (LoopPost True (fun st t => t.world = w ∧ ∃ rounds, KeyRead i content rounds st)
        (fun st _ => KEY_FILE_SIZE - st.2.2.2.pos) (KEY_FILE_SIZE - st.2.2.2.pos)
        (fun out t => t.world = w ∧ out.1 = keysOf content ∧ out.2.1.pending = [] ∧
          out.2.2 = true)) := by
  obtain ⟨K, second, idx, fp⟩ := st
  have stream : fp = ⟨i, 3 * rounds, [], false⟩ := read.stream
  have bound := read.bound
  subst here
  unfold readKeyRound
  simp only [Prog.bind_eq, Prog.pure_eq]
  rw [stream]
  by_cases more : rounds < 2 * AES_KEY_SIZE
  · have inside : 3 * rounds + 2 < content.length := by
      rw [size]
      simp only [KEY_FILE_SIZE, AES_KEY_SIZE] at more ⊢
      omega
    have byte : (charToHex content[3 * rounds] <<< 4) ||| charToHex content[3 * rounds + 1] =
        groupByte content rounds := by
      rw [groupByte, List.getD_eq_getElem?_getD, List.getD_eq_getElem?_getD,
        List.getElem?_eq_getElem (by omega), List.getElem?_eq_getElem (by omega)]
      rfl
    obtain ⟨K', stored, iv, key⟩ := read.store more
    apply wp_only_bind (only_group file (by omega)) (all _ _)
    simp only [byte, stored]
    have separator : (t.world.fs.data i)[3 * rounds + 2]? = some content[3 * rounds + 2] := by
      rw [file, List.getElem?_eq_getElem inside]
    apply wp_only_bind (only_fgetc separator) (all _ _)
    have next : ∀ second', second' = decide (AES_KEY_SIZE ≤ rounds + 1) →
        ∀ idx', idx' = (rounds + 1) % AES_KEY_SIZE →
        KeyRead i content (rounds + 1) (K', second', idx', ⟨i, 3 * rounds + 2 + 1, [], false⟩) := by
      intro second' second_eq idx' idx_eq
      exact ⟨more, second_eq, idx_eq, rfl, iv, key⟩
    have idx_eq : idx = rounds % AES_KEY_SIZE := read.idx
    have second_eq : second = decide (AES_KEY_SIZE ≤ rounds) := read.second
    have smaller : KEY_FILE_SIZE - (3 * rounds + 2 + 1) < KEY_FILE_SIZE - 3 * rounds := by
      rw [size] at inside
      omega
    have sixteen : AES_KEY_SIZE = 16 := rfl
    rw [sixteen] at idx_eq
    by_cases full : idx + 1 = AES_KEY_SIZE
    · rw [if_pos full]
      refine wp_ret.mpr ⟨⟨rfl, rounds + 1, next true ?_ 0 ?_⟩, fun _ => smaller⟩
      · rw [eq_comm, decide_eq_true_iff]
        omega
      · rw [sixteen]
        omega
    · rw [if_neg full]
      refine wp_ret.mpr ⟨⟨rfl, rounds + 1, next second ?_ (idx + 1) ?_⟩, fun _ => smaller⟩
      · rw [second_eq, decide_eq_decide]
        omega
      · rw [sixteen]
        omega
  · have last : rounds = 2 * AES_KEY_SIZE := Nat.le_antisymm bound (Nat.not_lt.mp more)
    have past : content.length ≤ 3 * rounds := by
      rw [size, last]
      decide
    apply wp_only_bind (only_end file past) (all _ _)
    subst last
    exact wp_ret.mpr ⟨rfl, read.done, rfl, rfl⟩

/-- The loop reads all groups of a file of the right size. -/
theorem readKeyLoop_wp (all : ∀ t e, guard t e) (file : w.fs.data i = content)
    (size : content.length = KEY_FILE_SIZE) {t : SysTape lib} (here : t.world = w) :
    Wp (Alone lib) guard True
      (Prog.iterate readKeyRound (AESKeys.zero, false, 0, Stream.opened i)) t
      (fun out t => t.world = w ∧ out.1 = keysOf content ∧ out.2.1.pending = [] ∧
        out.2.2 = true) := by
  apply wp_iterate (fun st t => t.world = w ∧ ∃ rounds, KeyRead i content rounds st)
    (fun st _ => KEY_FILE_SIZE - st.2.2.2.pos)
  · refine ⟨here, 0, Nat.zero_le _, rfl, rfl, rfl, ?_, ?_⟩
    · intro _ before
      exact absurd before (Nat.not_lt_zero _)
    · intro _ before
      exact absurd before (Nat.not_lt_zero _)
  · intro _ t _
    exact all t none
  · intro st t held
    obtain ⟨same, rounds, read⟩ := held
    exact readKeyRound_wp all file size read same

/-- What `filerail_read_AES_keys` returns for the content of a file. -/
def readResult (content : List UInt8) : Int × AESKeys :=
  if content.length = KEY_FILE_SIZE then (0, keysOf content) else (-1, .zero)

/-- The reader comes to an end for every file, without a write beyond the arrays. -/
theorem readAESKeys_wp (all : ∀ t e, guard t e) {key_path : CStr} {t : SysTape lib}
    (file : t.world.fs.fileAt (t.world.target key_path) = some content) :
    Wp (Alone lib) guard True (readAESKeys key_path) t
      (fun r t' => r = readResult content ∧ t'.world = t.world) := by
  obtain ⟨i, node, data⟩ := Store.fileAt_eq_some_iff.mp file
  unfold readAESKeys readResult
  simp only [Prog.bind_eq, Prog.pure_eq]
  apply wp_only_bind (only_stat_file node) (all _ _)
  simp only [data]
  by_cases size : content.length = KEY_FILE_SIZE
  · rw [if_neg (not_not.mpr size), if_pos size]
    have rb : Mode.rb ≠ .wb := by decide
    refine wp_only_bind (only_fopen_file rb node) (all _ _) ?_
    apply wp_bind
    refine wp_mono (readKeyLoop_wp all data size rfl) ?_
    intro out t' done
    obtain ⟨K, fp, ok⟩ := out
    obtain ⟨same, read, closed, fine⟩ := done
    cases fine
    apply wp_only_bind (only_fclose closed) (all _ _)
    exact wp_ret.mpr ⟨by rw [if_pos rfl, ← read], same⟩
  · rw [if_pos size, if_neg size]
    exact wp_ret.mpr ⟨rfl, rfl⟩

end Reader

/-! ### Exactly the documented format -/

/-- The digits of a byte. -/
def digitPair (b : UInt8) : UInt8 × UInt8 :=
  (decToHexChar (b >>> 4), decToHexChar (0x0f &&& b))

theorem pairValue_digitPair (b : UInt8) : pairValue (digitPair b) = some b := by
  revert b
  apply byte_forall
  decide +kernel

/-- A key file for given keys. -/
def formatKeys (K : AESKeys) : List UInt8 :=
  keyLine (K.iv.toList.map digitPair) ++ keyLine (K.key.toList.map digitPair)

theorem documented_format (K : AESKeys) : Documented (formatKeys K) K := by
  have pairs : ∀ bytes : List UInt8,
      (bytes.map digitPair).map pairValue = bytes.map some := by
    intro bytes
    rw [List.map_map]
    exact List.map_congr_left (fun b _ => pairValue_digitPair b)
  exact ⟨_, _, pairs _, pairs _, rfl⟩

/-- The reader accepts the content if and only if it is a documented one, and then returns the keys
    that are written there. -/
def ReadsDocumented (key_path : CStr) (t : SysTape lib) (content : List UInt8) : Prop :=
  Wp (Alone lib) (fun _ _ => True) True (readAESKeys key_path) t (fun r _ =>
    (r.1 = 0 ↔ ∃ K, Documented content K) ∧ (∀ K, Documented content K → r.2 = K) ∧
      (r.1 = 0 ∨ r.1 = -1))

/-- The tape of a process that finds a key file under `/k`. -/
def keyTape (content : List UInt8) : SysTape reference :=
  ⟨{ fs := tree [] [([letter 107], content)], cwd := [] }, []⟩

end Filerail
