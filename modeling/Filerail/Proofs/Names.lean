/-
Module: Filerail.Proofs.Names
Layer: Proofs
Purpose: What becomes of names in fixed-size buffers. Splitting a path: the backward scan finds the
  last component of what follows the first character, and the two buffers then hold name and
  directory without a terminator of their own. The name of a hash: the loop writes its digits and no
  terminator. Composing: which lengths fit every buffer on the way of a transfer, for each of the
  four requests.
Imports: Filerail.Core.Names, Mathlib.Data.List.DropRight
Main exports: lastComponent, parseResourcePath_exact_iff, checkpoint_path_exact_iff, names_fit_iff
-/
import Filerail.Core.Names
import Mathlib.Data.List.DropRight

namespace Filerail

open CString

/-! ### Splitting a path -/

/-- The string after the last slash. -/
def lastComponent (path : CStr) : CStr :=
  path.rtakeWhile (· ≠ slash)

/-- The string before the last slash. -/
def beforeLast (path : CStr) : CStr :=
  path.take (path.length - (lastComponent path).length - 1)

theorem length_lastComponent_le (path : CStr) : (lastComponent path).length ≤ path.length :=
  List.IsSuffix.length_le (List.rtakeWhile_suffix _ _)

theorem drop_lastComponent (path : CStr) :
    path.drop (path.length - (lastComponent path).length) = lastComponent path := by
  obtain ⟨front, split⟩ := List.rtakeWhile_suffix (fun c => decide (c ≠ slash)) path
  have length := congrArg List.length split
  rw [List.length_append] at length
  have front_length : path.length - (lastComponent path).length = front.length := by
    rw [lastComponent, ← length]
    omega
  rw [front_length]
  conv_lhs => rw [← split]
  exact List.drop_left

theorem lastComponent_concat (path : CStr) (c : UInt8) :
    lastComponent (path ++ [c]) = if c = slash then [] else lastComponent path ++ [c] := by
  unfold lastComponent
  rw [List.rtakeWhile_concat]
  by_cases found : c = slash
  · rw [if_neg (by simp [found]), if_pos found]
  · rw [if_pos (by simp [found]), if_neg found]

/-- A path that starts with a slash has its last component behind it. -/
theorem lastComponent_slash (rest : CStr) : lastComponent (slash :: rest) = lastComponent rest := by
  induction rest using List.reverseRecOn with
  | nil => rfl
  | append_singleton rest x ih =>
      rw [← List.cons_append, lastComponent_concat, lastComponent_concat, ih]

/-- The scan looks at no character behind the one it starts at. -/
theorem scanSlash_append (path behind : CStr) {i : Nat} (inside : i < path.length) :
    scanSlash (path ++ behind) i = scanSlash path i := by
  induction i with
  | zero => rfl
  | succ i ih =>
      rw [scanSlash, scanSlash, List.getElem?_append_left inside, ih (by omega)]

/-- The scan from the end stops at the last slash behind the first character, or at the start. -/
theorem scanSlash_eq (c : UInt8) (rest : CStr) :
    scanSlash (c :: rest) rest.length = rest.length - (lastComponent rest).length := by
  induction rest using List.reverseRecOn with
  | nil => rfl
  | append_singleton rest x ih =>
      have last : (c :: (rest ++ [x]))[rest.length + 1]? = some x := by
        simp
      rw [List.length_append, List.length_singleton, scanSlash, last]
      rw [lastComponent_concat]
      by_cases found : x = slash
      · rw [if_pos (congrArg some found), if_pos found]
        rfl
      · have inner : scanSlash (c :: (rest ++ [x])) rest.length = scanSlash (c :: rest) rest.length :=
          scanSlash_append (c :: rest) [x] (by simp)
        rw [if_neg (fun same => found (Option.some.inj same)), if_neg found, inner, ih,
          List.length_append, List.length_singleton]
        omega

/-- What a buffer holds whose first byte was cleared before a string was put at its start. -/
def put {n : Nat} (buffer : List.Vector UInt8 n) (s : CStr) : List UInt8 :=
  s ++ (0 :: buffer.toList.tail).drop s.length

/-- The byte of a buffer at an index is a terminator; the first one always is. -/
def Terminated {n : Nat} (buffer : List.Vector UInt8 n) (k : Nat) : Prop :=
  k = 0 ∨ buffer.toList[k]? = some 0

instance {n : Nat} (buffer : List.Vector UInt8 n) (k : Nat) : Decidable (Terminated buffer k) :=
  inferInstanceAs (Decidable (_ ∨ _))

/-- A path the code takes. -/
def Accepted (path : CStr) : Prop :=
  path ≠ [] ∧ path.length ≤ MAX_PATH_LENGTH - 1 ∧
    (lastComponent path.tail).length ≤ MAX_RESOURCE_LENGTH - 1

instance (path : CStr) : Decidable (Accepted path) :=
  inferInstanceAs (Decidable (_ ∧ _ ∧ _))

/-- What the code takes for the directory. -/
def scannedDir (path : CStr) : CStr :=
  path.take (path.length - 1 - (lastComponent path.tail).length)

/-- Clearing the first byte of a buffer and putting a string at its start. -/
theorem store_cleared {n : Nat} (positive : 0 < n) (buffer : List.Vector UInt8 n) :
    ∃ cleared, store buffer 0 [0] = some cleared ∧ ∀ s, s.length ≤ n →
      ∃ buffer', store cleared 0 s = some buffer' ∧ buffer'.toList = put buffer s := by
  obtain ⟨cleared, first⟩ := Option.isSome_iff_exists.mp
    ((store_isSome_iff buffer 0 [0]).mpr (by simp only [List.length_singleton]; omega))
  refine ⟨cleared, first, ?_⟩
  intro s fits
  obtain ⟨buffer', second⟩ := Option.isSome_iff_exists.mp
    ((store_isSome_iff cleared 0 s).mpr (by simpa using fits))
  refine ⟨buffer', second, ?_⟩
  rw [toList_store second, toList_store first]
  simp only [List.take_zero, List.nil_append, Nat.zero_add, List.length_singleton, List.drop_one, put,
    List.cons_append]

/-- The copies, once the loop has found the last slash behind the first character. -/
theorem copyParts_cases (c : UInt8) (rest : CStr) (short : rest.length < MAX_PATH_LENGTH)
    {resource_name : NameBuffer} {resource_dir : PathBuffer} {name : NameBuffer} {dir : PathBuffer}
    (put_name : ∀ s, s.length ≤ MAX_RESOURCE_LENGTH →
      ∃ name', store name 0 s = some name' ∧ name'.toList = put resource_name s)
    (put_dir : ∀ s, s.length ≤ MAX_PATH_LENGTH →
      ∃ dir', store dir 0 s = some dir' ∧ dir'.toList = put resource_dir s) :
    ∃ parsed name' dir',
      copyParts (c :: rest) (rest.length - (lastComponent rest).length) name dir =
        some (parsed, name', dir') ∧
      (parsed = true ↔ (lastComponent rest).length ≤ MAX_RESOURCE_LENGTH - 1) ∧
      (parsed = true → name'.toList = put resource_name (lastComponent rest) ∧
        dir'.toList = put resource_dir
          (if scannedDir (c :: rest) = [] then [slash, 0] else scannedDir (c :: rest))) := by
  have name_le := length_lastComponent_le rest
  have tail_length : (c :: rest).length - (rest.length - (lastComponent rest).length) - 1 =
      (lastComponent rest).length := by
    rw [List.length_cons]
    omega
  unfold copyParts
  rw [tail_length]
  by_cases long : (lastComponent rest).length > MAX_RESOURCE_LENGTH - 1
  · rw [if_pos long]
    refine ⟨false, name, dir, rfl, ?_, fun impossible => nomatch impossible⟩
    constructor
    · intro impossible
      cases impossible
    · intro fits
      exact absurd fits (Nat.not_le.mpr long)
  · have name_part : (c :: rest).drop (rest.length - (lastComponent rest).length + 1) =
        lastComponent rest := by
      rw [List.drop_succ_cons, drop_lastComponent]
    have dir_part : scannedDir (c :: rest) =
        (c :: rest).take (rest.length - (lastComponent rest).length) := rfl
    obtain ⟨name', stored_name, holds_name⟩ := put_name (lastComponent rest)
      (Nat.le_trans (Nat.not_lt.mp long) (Nat.sub_le _ _))
    rw [if_neg long, name_part, stored_name]
    by_cases root : rest.length - (lastComponent rest).length = 0
    · obtain ⟨dir', stored_dir, holds_dir⟩ := put_dir [slash, 0] (by decide)
      refine ⟨true, name', dir', ?_, ⟨fun _ => Nat.not_lt.mp long, fun _ => rfl⟩, ?_⟩
      · simp only [Option.bind_eq_bind, Option.bind_some, if_pos root]
        show (store dir 0 [slash, 0]).bind _ = _
        rw [stored_dir]
        rfl
      · intro _
        rw [dir_part, root, List.take_zero, if_pos rfl]
        exact ⟨holds_name, holds_dir⟩
    · obtain ⟨dir', stored_dir, holds_dir⟩ := put_dir (scannedDir (c :: rest)) (by
        rw [dir_part, List.length_take]
        omega)
      refine ⟨true, name', dir', ?_, ⟨fun _ => Nat.not_lt.mp long, fun _ => rfl⟩, ?_⟩
      · simp only [Option.bind_eq_bind, Option.bind_some, if_neg root]
        rw [← dir_part, stored_dir]
        rfl
      · intro _
        have some_dir : scannedDir (c :: rest) ≠ [] := by
          intro empty
          have length := congrArg List.length empty
          rw [dir_part, List.length_take, List.length_cons, List.length_nil] at length
          omega
        rw [if_neg some_dir]
        exact ⟨holds_name, holds_dir⟩

/-- `filerail_parse_resource_path` by cases: what it rejects, and what it leaves in the buffers. -/
theorem parseResourcePath_cases (path : CStr) (resource_name : NameBuffer)
    (resource_dir : PathBuffer) :
    ∃ parsed name dir, parseResourcePath path resource_name resource_dir = some (parsed, name, dir) ∧
      (parsed = true ↔ Accepted path) ∧
      (parsed = true → name.toList = put resource_name (lastComponent path.tail) ∧
        dir.toList = put resource_dir
          (if scannedDir path = [] then [slash, 0] else scannedDir path)) := by
  unfold parseResourcePath
  by_cases long : path.length > MAX_PATH_LENGTH - 1
  · rw [if_pos long]
    refine ⟨false, resource_name, resource_dir, rfl, ?_, fun impossible => nomatch impossible⟩
    constructor
    · intro impossible
      cases impossible
    · intro accepted
      exact absurd accepted.2.1 (Nat.not_le.mpr long)
  · obtain ⟨name, cleared_name, put_name⟩ := store_cleared (by decide) resource_name
    obtain ⟨dir, cleared_dir, put_dir⟩ := store_cleared (by decide) resource_dir
    rw [if_neg long, cleared_name, cleared_dir]
    simp only [Option.bind_eq_bind, Option.bind_some]
    cases path with
    | nil =>
        refine ⟨false, name, dir, rfl, ?_, fun impossible => nomatch impossible⟩
        constructor
        · intro impossible
          cases impossible
        · intro accepted
          exact absurd rfl accepted.1
    | cons c rest =>
        have short : rest.length < MAX_PATH_LENGTH - 1 := Nat.not_lt.mp long
        obtain ⟨parsed, name', dir', result, accepted, holds⟩ :=
          copyParts_cases c rest (Nat.lt_of_lt_of_le short (Nat.sub_le _ _)) put_name put_dir
        refine ⟨parsed, name', dir', ?_, ?_, holds⟩
        · show copyParts (c :: rest) (scanSlash (c :: rest) rest.length) name dir = _
          rw [scanSlash_eq, result]
        · rw [accepted]
          constructor
          · intro fits
            exact ⟨List.cons_ne_nil c rest, short, fits⟩
          · intro accepted
            exact accepted.2.2

/-- A path with a slash is the string before the last one, the slash and the string after it. -/
theorem beforeLast_append {path : CStr} (member : slash ∈ path) :
    beforeLast path ++ slash :: lastComponent path = path := by
  induction path using List.reverseRecOn with
  | nil => cases member
  | append_singleton path c ih =>
      unfold beforeLast
      rw [lastComponent_concat]
      by_cases found : c = slash
      · rw [if_pos found, List.length_append, List.length_singleton, List.length_nil, Nat.sub_zero,
          Nat.add_sub_cancel, List.take_left, found]
      · have inside : slash ∈ path := by
          rcases List.mem_append.mp member with inside | last
          · exact inside
          · exact absurd (List.mem_singleton.mp last).symm found
        have cut : (path ++ [c]).length - (lastComponent path ++ [c]).length - 1 =
            path.length - (lastComponent path).length - 1 := by
          rw [List.length_append, List.length_append, List.length_singleton]
          omega
        rw [if_neg found, cut, List.take_append_of_le_length (by omega)]
        show beforeLast path ++ slash :: (lastComponent path ++ [c]) = _
        rw [← List.cons_append, ← List.append_assoc, ih inside]

/-- The directory a path is split into. -/
def dirPart (path : CStr) : CStr :=
  if beforeLast path = [] then [slash] else beforeLast path

/-- Both parts of an absolute path, joined again, name the same place. -/
theorem resolve_parts {path : CStr} (absolute : path.head? = some slash) (cwd : Loc) :
    resolve cwd (dirPart path ++ slash :: lastComponent path) = resolve cwd path := by
  have parts := beforeLast_append (List.mem_of_head? absolute)
  unfold dirPart
  split
  · rename_i root
    rw [root, List.nil_append] at parts
    conv_rhs => rw [← parts]
    simp [resolve, walk]
  · rw [parts]

/-- What was put into a buffer is a string there when a terminator was behind it. -/
theorem holds_put_iff {n : Nat} {buffer buffer' : List.Vector UInt8 n} {s : CStr}
    (clean : (0 : UInt8) ∉ s) (result : buffer'.toList = put buffer s) :
    Holds 0 buffer' s ↔ Terminated buffer s.length := by
  have terminator : s ++ [0] <+: buffer'.toList ↔
      (0 :: buffer.toList.tail)[s.length]? = some 0 := by
    rw [result, put, List.prefix_append_right_inj, ← List.head?_drop]
    cases (0 :: buffer.toList.tail).drop s.length with
    | nil => simp
    | cons c rest => simp [List.cons_prefix_cons, eq_comm]
  have index : (0 :: buffer.toList.tail)[s.length]? = some 0 ↔ Terminated buffer s.length := by
    unfold Terminated
    cases s.length with
    | zero => simp
    | succ k =>
        rw [List.getElem?_cons_succ, List.getElem?_tail]
        simp
  rw [← index, ← terminator]
  exact ⟨Holds.front, fun front => ⟨clean, front⟩⟩

/-- What the code promises of a path: it takes the absolute paths whose parts fit, and then has both
    parts in its buffers. -/
def SplitsExactly (path : CStr) (resource_name : NameBuffer) (resource_dir : PathBuffer) : Prop :=
  ∃ parsed name dir, parseResourcePath path resource_name resource_dir = some (parsed, name, dir) ∧
    (parsed = true ↔ path.length ≤ MAX_PATH_LENGTH - 1 ∧ path.head? = some slash ∧
      (lastComponent path).length ≤ MAX_RESOURCE_LENGTH - 1) ∧
    (parsed = true → Holds 0 name (lastComponent path) ∧ Holds 0 dir (dirPart path) ∧
      ∀ cwd, resolve cwd (dirPart path ++ slash :: lastComponent path) = resolve cwd path)

/-- The directory of an absolute path is in its buffer when a terminator was behind it. -/
theorem holds_dirPart_iff {rest : CStr} (clean : (0 : UInt8) ∉ slash :: rest)
    {resource_dir dir : PathBuffer}
    (result : dir.toList = put resource_dir
      (if scannedDir (slash :: rest) = [] then [slash, 0] else scannedDir (slash :: rest))) :
    Holds 0 dir (dirPart (slash :: rest)) ↔
      Terminated resource_dir (beforeLast (slash :: rest)).length := by
  have same : scannedDir (slash :: rest) = beforeLast (slash :: rest) := by
    unfold scannedDir beforeLast
    rw [lastComponent_slash, List.tail_cons, Nat.sub_right_comm]
  rw [same] at result
  unfold dirPart
  split
  · rename_i root
    rw [if_pos root] at result
    constructor
    · intro _
      exact Or.inl (by rw [root]; rfl)
    · intro _
      refine ⟨by decide, ?_⟩
      rw [result]
      exact List.prefix_append [slash, 0] _
  · rename_i below
    rw [if_neg below] at result
    exact holds_put_iff (fun member => clean (List.mem_of_mem_take member)) result

/-- The split is exact for the paths that are not accepted, and for the absolute ones whose parts the
    earlier contents of the buffers happen to terminate. -/
theorem parseResourcePath_exact_iff {path : CStr} (clean : (0 : UInt8) ∉ path)
    (resource_name : NameBuffer) (resource_dir : PathBuffer) :
    SplitsExactly path resource_name resource_dir ↔
      (Accepted path → path.head? = some slash ∧
        Terminated resource_name (lastComponent path).length ∧
        Terminated resource_dir (beforeLast path).length) := by
  obtain ⟨parsed, name, dir, result, taken, holds⟩ :=
    parseResourcePath_cases path resource_name resource_dir
  constructor
  · rintro ⟨parsed', name', dir', result', exact_taken, exact_holds⟩ accepted
    rw [result] at result'
    cases result'
    have yes := taken.mpr accepted
    obtain ⟨_, absolute, _⟩ := exact_taken.mp yes
    obtain ⟨held_name, held_dir, _⟩ := exact_holds yes
    obtain ⟨rest, rfl⟩ : ∃ rest, path = slash :: rest := List.head?_eq_some_iff.mp absolute
    rw [lastComponent_slash] at held_name ⊢
    have clean_name : (0 : UInt8) ∉ lastComponent rest :=
      fun member => clean (List.mem_cons_of_mem _ ((List.rtakeWhile_suffix _ _).subset member))
    exact ⟨rfl, (holds_put_iff clean_name (holds yes).1).mp held_name,
      (holds_dirPart_iff clean (holds yes).2).mp held_dir⟩
  · intro condition
    refine ⟨parsed, name, dir, result, ?_, ?_⟩
    · rw [taken]
      constructor
      · intro accepted
        obtain ⟨absolute, _⟩ := condition accepted
        obtain ⟨rest, rfl⟩ : ∃ rest, path = slash :: rest := List.head?_eq_some_iff.mp absolute
        refine ⟨accepted.2.1, absolute, ?_⟩
        rw [lastComponent_slash]
        exact accepted.2.2
      · rintro ⟨short, absolute, fits⟩
        obtain ⟨rest, rfl⟩ : ∃ rest, path = slash :: rest := List.head?_eq_some_iff.mp absolute
        rw [lastComponent_slash] at fits
        exact ⟨List.cons_ne_nil _ _, short, fits⟩
    · intro yes
      obtain ⟨absolute, name_ends, dir_ends⟩ := condition (taken.mp yes)
      obtain ⟨rest, rfl⟩ : ∃ rest, path = slash :: rest := List.head?_eq_some_iff.mp absolute
      have clean_name : (0 : UInt8) ∉ lastComponent rest :=
        fun member => clean (List.mem_cons_of_mem _ ((List.rtakeWhile_suffix _ _).subset member))
      refine ⟨?_, (holds_dirPart_iff clean (holds yes).2).mpr dir_ends, resolve_parts absolute⟩
      rw [lastComponent_slash] at name_ends ⊢
      exact (holds_put_iff clean_name (holds yes).1).mpr name_ends

/-- A buffer of zeros. -/
def cleared (n : Nat) : List.Vector UInt8 n :=
  List.Vector.replicate n 0

/-- A buffer nobody has cleared. -/
def dirty (n : Nat) : List.Vector UInt8 n :=
  List.Vector.replicate n 120

theorem parseResourcePath_exact_small : SplitsExactly [slash, 97] (cleared _) (cleared _) := by
  apply (parseResourcePath_exact_iff (by decide) _ _).mpr
  intro _
  refine ⟨rfl, Or.inr ?_, Or.inl rfl⟩
  decide

/-- `a` is taken for the empty name in `/`, and the name in `/a` runs on in an old buffer. -/
theorem parse_relative_and_dirty :
    ¬ SplitsExactly [97] (cleared _) (cleared _) ∧ ¬ SplitsExactly [slash, 97] (dirty _) (dirty _) := by
  constructor
  · rintro ⟨parsed, name, dir, result, exact_taken, _⟩
    obtain ⟨_, _, _, result', taken, _⟩ :=
      parseResourcePath_cases [97] (cleared MAX_RESOURCE_LENGTH) (cleared MAX_PATH_LENGTH)
    rw [result] at result'
    cases result'
    have absolute := (exact_taken.mp (taken.mpr (by decide))).2.1
    cases absolute
  · rintro ⟨parsed, name, dir, result, _, exact_holds⟩
    obtain ⟨_, _, _, result', taken, holds⟩ :=
      parseResourcePath_cases [slash, 97] (dirty MAX_RESOURCE_LENGTH) (dirty MAX_PATH_LENGTH)
    rw [result] at result'
    cases result'
    have yes := taken.mpr (by decide)
    have ends : Terminated (dirty MAX_RESOURCE_LENGTH) 1 :=
      (holds_put_iff (s := [97]) (by decide) (holds yes).1).mp (exact_holds yes).1
    revert ends
    decide

/-! ### The name of a hash -/

/-- The two digits `filerail_hash_to_str` writes for a byte. -/
def byteDigits (b : UInt8) : List UInt8 :=
  [decToHexChar ((0xf0 &&& b) >>> 4), decToHexChar (0x0f &&& b)]

/-- After some rounds the digits of as many bytes are written and the rest is untouched. -/
theorem writeHash_rounds (hash : Hash) (hex_str : List UInt8) {rounds : Nat}
    (bytes : rounds ≤ MD5_HASH_LENGTH) (room : 2 * rounds ≤ hex_str.length) :
    writeHash hash hex_str rounds =
      (hash.toList.take rounds).flatMap byteDigits ++ hex_str.drop (2 * rounds) ∧
      ((hash.toList.take rounds).flatMap byteDigits).length = 2 * rounds := by
  induction rounds with
  | zero => simp [writeHash]
  | succ k ih =>
      obtain ⟨so_far, length⟩ := ih (by omega) (by omega)
      have inside : k < hash.toList.length := by
        rw [List.Vector.toList_length]
        exact bytes
      obtain ⟨x, y, behind⟩ : ∃ x y, hex_str.drop (2 * k) = x :: y :: hex_str.drop (2 * (k + 1)) := by
        refine ⟨hex_str[2 * k], hex_str[2 * k + 1], ?_⟩
        rw [List.drop_eq_getElem_cons (by omega), List.drop_eq_getElem_cons (by omega)]
        rfl
      have byte : hash.toList.getD k 0 = hash.toList[k] := by
        rw [List.getD_eq_getElem?_getD, List.getElem?_eq_getElem inside, Option.getD_some]
      have digits : (hash.toList.take (k + 1)).flatMap byteDigits =
          (hash.toList.take k).flatMap byteDigits ++ byteDigits hash.toList[k] := by
        rw [← List.take_append_getElem inside, List.flatMap_append, List.flatMap_singleton]
      constructor
      · unfold writeHash at so_far ⊢
        rw [List.range_succ, List.foldl_append, so_far, List.foldl_cons, List.foldl_nil, byte, behind,
          List.set_append_right _ _ (by omega), length, Nat.sub_self, List.set_cons_zero,
          List.set_append_right _ _ (by omega), length, Nat.add_sub_cancel_left,
          List.set_cons_succ, List.set_cons_zero, digits, List.append_assoc]
        rfl
      · rw [digits, List.length_append, length]
        rfl

theorem writeHash_eq (hash : Hash) {hex_str : List UInt8}
    (size : hex_str.length = 2 * MD5_HASH_LENGTH) :
    writeHash hash hex_str MD5_HASH_LENGTH = hashToStr hash := by
  obtain ⟨written, _⟩ := writeHash_rounds hash hex_str (Nat.le_refl _) (Nat.le_of_eq size.symm)
  rw [written, List.drop_of_length_le (Nat.le_of_eq size), List.append_nil,
    List.take_of_length_le (Nat.le_of_eq hash.toList_length)]
  rfl

/-- The digits are read with what lies behind them, up to the next zero. -/
theorem hexRead_eq (stack : Stack) (hash : Hash) :
    stack.hexRead hash = hashToStr hash ++ cstr stack.afterHex := by
  unfold Stack.hexRead
  rw [writeHash_eq hash (List.Vector.toList_length _)]
  have clean : (0 : UInt8) ∉ hashToStr hash := not_mem_hashToStr (by decide) hash
  exact text_append clean _

theorem checkpointPath_eq (stack : Stack) (ckpt_path : CStr) (hash : Hash) :
    checkpointPath stack.memory ckpt_path hash = ckpt_path ++ slash :: stack.hexRead hash := by
  rw [hexRead_eq]
  rfl

/-- A lowercase hexadecimal digit. -/
def lowerDigit (n : Nat) : UInt8 :=
  if n < 10 then .ofNat (48 + n) else .ofNat (87 + n)

/-- The 32 lowercase hexadecimal digits of a hash. -/
def hexName (hash : Hash) : CStr :=
  hash.toList.flatMap (fun b => [lowerDigit (b.toNat / 16), lowerDigit (b.toNat % 16)])

theorem byteDigits_eq (b : UInt8) :
    byteDigits b = [lowerDigit (b.toNat / 16), lowerDigit (b.toNat % 16)] := by
  revert b
  apply byte_forall
  decide +kernel

theorem hashToStr_eq_hexName (hash : Hash) : hashToStr hash = hexName hash := by
  unfold hashToStr hexName
  congr 1
  funext b
  exact byteDigits_eq b

/-- The checkpoint of a hash has the name it should have when a zero follows the digits in memory;
    names that are as they should be differ for different hashes. -/
theorem checkpoint_path_exact_iff (stack : Stack) (ckpt_path : CStr) (hash : Hash) :
    (checkpointPath stack.memory ckpt_path hash = ckpt_path ++ slash :: hexName hash ↔
      cstr stack.afterHex = []) ∧
    checkpointPath stack.memory ckpt_path hash = ckpt_path ++ slash :: stack.hexRead hash ∧
    ∀ hash', ckpt_path ++ slash :: hexName hash = ckpt_path ++ slash :: hexName hash' ↔
      hash = hash' := by
  refine ⟨?_, ?_, ?_⟩
  · rw [← hashToStr_eq_hexName, checkpointPath, List.append_cancel_left_eq, List.cons.injEq]
    constructor
    · intro same
      exact List.append_right_eq_self.mp same.2
    · intro ends
      refine ⟨rfl, ?_⟩
      rw [Stack.memory, ends, List.append_nil]
  · exact checkpointPath_eq stack ckpt_path hash
  · intro hash'
    rw [List.append_cancel_left_eq, List.cons.injEq, ← hashToStr_eq_hexName, ← hashToStr_eq_hexName]
    constructor
    · intro same
      exact hashToStr_injective same.2
    · intro same
      exact ⟨rfl, congrArg hashToStr same⟩

/-- A stack of zeros, but for what lies behind `hex_str`. -/
def Stack.zeros (afterHex : List UInt8) : Stack where
  resource_name := cleared _
  afterName := []
  resource_dir := cleared _
  afterDir := []
  resource_path := cleared _
  header_name := cleared _
  header_dir := cleared _
  zip_filename := cleared _
  ckpt_resource_path := cleared _
  tmp_ckpt_resource_path := cleared _
  ckpt_path := cleared _
  hex_str := cleared _
  afterHex := afterHex
  padding := cleared _

/-- With another byte behind the digits the checkpoint gets another name. -/
theorem checkpoint_path_strays :
    checkpointPath (Stack.zeros [120]).memory [slash, 99] (cleared _) ≠
      [slash, 99] ++ slash :: hexName (cleared _) := by
  decide

/-! ### Composing names -/

/-- The lengths at which the names of a receiver fit their buffers. -/
structure ReceiverFits (stack : Stack) (dir name ckpt_path : CStr) : Prop where
  path : dir.length + name.length + 5 < MAX_PATH_LENGTH
  zip : name.length + 4 < MAX_RESOURCE_LENGTH
  ckpt : ckpt_path.length + (cstr stack.afterHex).length + 37 < MAX_PATH_LENGTH

/-- The lengths at which the name of a sender fits its buffer. -/
def SenderFits (name : CStr) : Prop :=
  name.length + 4 < MAX_RESOURCE_LENGTH

theorem zero_not_mem_cstr (cells : List UInt8) : (0 : UInt8) ∉ cstr cells :=
  nul_not_mem_text cells

theorem sendfileNames_isSome_iff (stack : Stack) {resource_name : CStr}
    (clean : (0 : UInt8) ∉ resource_name) :
    (sendfileNames stack resource_name).isSome ↔ SenderFits resource_name := by
  exact last_isSome_iff _ (compose_isSome_iff clean (by decide))

theorem hexRead_clean (stack : Stack) (hash : Hash) : (0 : UInt8) ∉ stack.hexRead hash :=
  zero_not_mem_cstr _

theorem length_hexRead (stack : Stack) (hash : Hash) :
    (stack.hexRead hash).length = 32 + (cstr stack.afterHex).length := by
  rw [hexRead_eq, List.length_append, length_hashToStr]
  rfl

/-- The checkpoint path is composed with two strings that end. -/
theorem ckpt_parts_clean (stack : Stack) (hash : Hash) :
    ∀ t ∈ [[slash], stack.hexRead hash], (0 : UInt8) ∉ t := by
  intro t member
  simp only [List.mem_cons, List.not_mem_nil, or_false] at member
  cases member with
  | inl separator =>
      rw [separator]
      decide
  | inr digits =>
      rw [digits]
      exact hexRead_clean stack hash

theorem recvfileNames_isSome_iff (stack : Stack) {resource_name resource_path ckpt_path : CStr}
    (hash : Hash) (clean_name : (0 : UInt8) ∉ resource_name) (clean_ckpt : (0 : UInt8) ∉ ckpt_path) :
    (recvfileNames stack resource_name resource_path ckpt_path hash).isSome ↔
      ckpt_path.length + (cstr stack.afterHex).length + 33 < MAX_PATH_LENGTH ∧
        resource_path.length < MAX_PATH_LENGTH ∧
        ckpt_path.length + (cstr stack.afterHex).length + 37 < MAX_PATH_LENGTH ∧
        resource_name.length + 4 < MAX_RESOURCE_LENGTH := by
  unfold recvfileNames
  have parts := ckpt_parts_clean stack hash
  have length : ([[slash], stack.hexRead hash] : List CStr).flatten.length =
      33 + (cstr stack.afterHex).length := by
    simp only [List.flatten_cons, List.flatten_nil, List.length_append, List.length_singleton,
      length_hexRead, List.length_nil]
    omega
  apply bind_isSome_iff
  · rw [compose_isSome_iff clean_ckpt parts, length]
    omega
  intro ckpt_resource_path composed
  have held := compose_holds clean_ckpt parts composed
  apply bind_isSome_iff (copy_isSome_iff _ _ _)
  intro ckpt _
  have reads : cstr ckpt_resource_path.toList = ckpt_path ++ [[slash], stack.hexRead hash].flatten :=
    held.text
  apply bind_isSome_iff
  · rw [compose_isSome_iff (zero_not_mem_cstr _) (by decide), reads, List.length_append, length]
    show _ + 4 < _ ↔ _
    omega
  intro tmp_ckpt_resource_path _
  exact last_isSome_iff _ (compose_isSome_iff clean_name (by decide))

/-- The path of a resource is composed with two strings that end. -/
theorem name_parts_clean {name : CStr} (clean : (0 : UInt8) ∉ name) :
    ∀ t ∈ [[slash], name], (0 : UInt8) ∉ t := by
  intro t member
  simp only [List.mem_cons, List.not_mem_nil, or_false] at member
  cases member with
  | inl separator =>
      rw [separator]
      decide
  | inr last =>
      rw [last]
      exact clean

section ResourcePath

variable {dir name : CStr} (clean_dir : (0 : UInt8) ∉ dir) (clean_name : (0 : UInt8) ∉ name)
include clean_dir clean_name

theorem resourcePath_isSome_iff (buffer : PathBuffer) :
    (compose 0 buffer dir [[slash], name]).isSome ↔ dir.length + name.length + 1 < MAX_PATH_LENGTH := by
  rw [compose_isSome_iff clean_dir (name_parts_clean clean_name)]
  simp only [List.flatten_cons, List.flatten_nil, List.length_append, List.length_singleton,
    List.length_nil]
  omega

theorem resourcePath_holds {buffer buffer' : PathBuffer}
    (composed : compose 0 buffer dir [[slash], name] = some buffer') :
    Holds 0 buffer' (dir ++ slash :: name) := by
  have held := compose_holds clean_dir (name_parts_clean clean_name) composed
  rwa [show ([[slash], name] : List CStr).flatten = slash :: name by simp] at held

end ResourcePath

theorem headerNames_isSome_iff (stack : Stack) (name dir : CStr) :
    (headerNames stack name dir).isSome ↔
      name.length < MAX_RESOURCE_LENGTH ∧ dir.length < MAX_PATH_LENGTH := by
  unfold headerNames
  apply bind_isSome_iff (copy_isSome_iff _ _ _)
  intro resource_name _
  exact last_isSome_iff _ (copy_isSome_iff _ _ _)

/-- The names of a receiver, once the path of the resource is composed. -/
theorem zipNames_isSome_iff (stack : Stack) {dir name ckpt_path : CStr} (hash : Hash)
    (clean_name : (0 : UInt8) ∉ name) (clean_ckpt : (0 : UInt8) ∉ ckpt_path)
    {resource_path : PathBuffer} (held : Holds 0 resource_path (dir ++ slash :: name)) :
    ((append 0 resource_path dotZip).bind (fun resource_path =>
        recvfileNames stack name (cstr resource_path.toList) ckpt_path hash)).isSome ↔
      ReceiverFits stack dir name ckpt_path := by
  have length : (dir ++ slash :: name).length = dir.length + name.length + 1 := by
    rw [List.length_append, List.length_cons]
    omega
  have receiver : ∀ zip_path, append 0 resource_path dotZip = some zip_path →
      ((recvfileNames stack name (cstr zip_path.toList) ckpt_path hash).isSome ↔
        ReceiverFits stack dir name ckpt_path) := by
    intro zip_path appended
    have zip_held := append_holds held (by decide) appended
    have reads : cstr zip_path.toList = dir ++ slash :: name ++ dotZip := zip_held.text
    rw [recvfileNames_isSome_iff stack hash clean_name clean_ckpt, reads, List.length_append, length]
    constructor
    · rintro ⟨_, path, ckpt, zip⟩
      exact ⟨path, zip, ckpt⟩
    · intro fits
      have ckpt := fits.ckpt
      exact ⟨by omega, fits.path, ckpt, fits.zip⟩
  refine (bind_isSome_iff (append_isSome_iff held) receiver).trans ?_
  constructor
  · exact And.right
  · intro fits
    rw [length]
    exact ⟨fits.path, fits⟩

/-- The string the client reads as the name of an accepted path. -/
def Stack.nameOf (stack : Stack) (path : CStr) : CStr :=
  cstr (put stack.resource_name (lastComponent path.tail) ++ stack.afterName)

/-- The string the client reads as its directory. -/
def Stack.dirOf (stack : Stack) (path : CStr) : CStr :=
  cstr (put stack.resource_dir (if scannedDir path = [] then [slash, 0] else scannedDir path) ++
    stack.afterDir)

/-- What the client reads after a path was split. -/
theorem parsed_cases (stack : Stack) (path : CStr) :
    ∃ parsed name dir, parseResourcePath path stack.resource_name stack.resource_dir =
        some (parsed, name, dir) ∧
      (parsed = true ↔ Accepted path) ∧
      (parsed = true →
        stack.nameRead name = stack.nameOf path ∧ stack.dirRead dir = stack.dirOf path) := by
  obtain ⟨parsed, name, dir, result, taken, holds⟩ :=
    parseResourcePath_cases path stack.resource_name stack.resource_dir
  refine ⟨parsed, name, dir, result, taken, ?_⟩
  intro yes
  obtain ⟨name_put, dir_put⟩ := holds yes
  rw [Stack.nameRead, Stack.dirRead, name_put, dir_put]
  exact ⟨rfl, rfl⟩

theorem clientPutNames_isSome_iff (stack : Stack) (res_path : CStr) {des_path : CStr}
    (des_short : des_path.length < MAX_PATH_LENGTH) :
    (clientPutNames stack res_path des_path).isSome ↔
      (Accepted res_path → SenderFits (stack.nameOf res_path)) := by
  obtain ⟨parsed, name, dir, result, taken, reads⟩ := parsed_cases stack res_path
  unfold clientPutNames
  simp only [result, Option.bind_eq_bind, Option.bind_some]
  by_cases yes : parsed = true
  · rw [if_pos yes, (reads yes).1]
    refine (bind_isSome_iff (headerNames_isSome_iff stack _ _) (fun _ _ =>
      last_isSome_iff _ (sendfileNames_isSome_iff stack (zero_not_mem_cstr _)))).trans ?_
    constructor
    · intro fits _
      exact fits.2
    · intro fits
      have zip : (stack.nameOf res_path).length + 4 < MAX_RESOURCE_LENGTH := fits (taken.mp yes)
      exact ⟨⟨by omega, des_short⟩, zip⟩
  · rw [if_neg yes]
    exact ⟨fun _ accepted => absurd (taken.mpr accepted) yes, fun _ => rfl⟩

theorem clientGetNames_isSome_iff (stack : Stack) (hash : Hash) (res_path : CStr)
    {des_path ckpt_path : CStr} (clean_des : (0 : UInt8) ∉ des_path)
    (clean_ckpt : (0 : UInt8) ∉ ckpt_path) :
    (clientGetNames stack res_path des_path ckpt_path hash).isSome ↔
      (Accepted res_path → (stack.dirOf res_path).length < MAX_PATH_LENGTH ∧
        ReceiverFits stack des_path (stack.nameOf res_path) ckpt_path) := by
  obtain ⟨parsed, name, dir, result, taken, reads⟩ := parsed_cases stack res_path
  unfold clientGetNames
  simp only [result, Option.bind_eq_bind, Option.bind_some]
  by_cases yes : parsed = true
  · have clean_name : (0 : UInt8) ∉ stack.nameOf res_path := zero_not_mem_cstr _
    have receiver : ∀ resource_path,
        compose 0 stack.resource_path des_path [[slash], stack.nameOf res_path] =
          some resource_path →
        (((append 0 resource_path dotZip).bind (fun zip_path =>
          (recvfileNames stack (stack.nameOf res_path) (cstr zip_path.toList) ckpt_path hash).bind
            (fun names => some (some names)))).isSome ↔
          ReceiverFits stack des_path (stack.nameOf res_path) ckpt_path) := by
      intro resource_path composed
      have held := resourcePath_holds clean_des clean_name composed
      have fits := last_isSome_iff some
        (zipNames_isSome_iff stack hash clean_name clean_ckpt held)
      rwa [Option.bind_assoc] at fits
    rw [if_pos yes, (reads yes).1, (reads yes).2]
    refine (bind_isSome_iff (resourcePath_isSome_iff clean_des clean_name _)
      (fun resource_path composed => bind_isSome_iff (headerNames_isSome_iff stack _ _)
        (fun _ _ => receiver resource_path composed))).trans ?_
    constructor
    · intro fits _
      exact ⟨fits.2.1.2, fits.2.2⟩
    · intro fits
      obtain ⟨dir_fits, receiver_fits⟩ := fits (taken.mp yes)
      have path := receiver_fits.path
      have zip := receiver_fits.zip
      exact ⟨by omega, ⟨by omega, dir_fits⟩, receiver_fits⟩
  · rw [if_neg yes]
    exact ⟨fun _ accepted => absurd (taken.mpr accepted) yes, fun _ => rfl⟩

theorem serverPutNames_isSome_iff (stack : Stack) (hash : Hash) (resource : ResourceHeader)
    {ckpt_path : CStr} (clean_ckpt : (0 : UInt8) ∉ ckpt_path) :
    (serverPutNames stack resource ckpt_path hash).isSome ↔
      ReceiverFits stack resource.dirStr resource.nameStr ckpt_path := by
  have clean_dir : (0 : UInt8) ∉ resource.dirStr := zero_not_mem_cstr _
  have clean_name : (0 : UInt8) ∉ resource.nameStr := zero_not_mem_cstr _
  unfold serverPutNames
  refine (bind_isSome_iff (resourcePath_isSome_iff clean_dir clean_name _)
    (fun resource_path composed => zipNames_isSome_iff stack hash clean_name clean_ckpt
      (resourcePath_holds clean_dir clean_name composed))).trans ?_
  constructor
  · exact And.right
  · intro fits
    have path := fits.path
    exact ⟨by omega, fits⟩

theorem serverGetNames_isSome_iff (stack : Stack) (resource : ResourceHeader) :
    (serverGetNames stack resource).isSome ↔
      resource.dirStr.length + resource.nameStr.length + 1 < MAX_PATH_LENGTH ∧
        SenderFits resource.nameStr := by
  have clean_dir : (0 : UInt8) ∉ resource.dirStr := zero_not_mem_cstr _
  have clean_name : (0 : UInt8) ∉ resource.nameStr := zero_not_mem_cstr _
  unfold serverGetNames
  refine (bind_isSome_iff (resourcePath_isSome_iff clean_dir clean_name _)
    (fun _ _ => bind_isSome_iff (headerNames_isSome_iff stack _ _)
      (fun _ _ => sendfileNames_isSome_iff stack clean_name))).trans ?_
  constructor
  · intro fits
    exact ⟨fits.1, fits.2.2⟩
  · intro fits
    exact ⟨fits.1, ⟨by decide, by decide⟩, fits.2⟩

/-- Which names fit all the buffers they are composed in, for each of the four requests. -/
theorem names_fit_iff (stack : Stack) (hash : Hash) (resource : ResourceHeader)
    (res_path : CStr) {des_path ckpt_path : CStr} (clean_des : (0 : UInt8) ∉ des_path)
    (clean_ckpt : (0 : UInt8) ∉ ckpt_path) (des_short : des_path.length ≤ MAX_PATH_LENGTH - 1) :
    ((clientPutNames stack res_path des_path).isSome ↔
      (Accepted res_path → SenderFits (stack.nameOf res_path))) ∧
    ((clientGetNames stack res_path des_path ckpt_path hash).isSome ↔
      (Accepted res_path → (stack.dirOf res_path).length < MAX_PATH_LENGTH ∧
        ReceiverFits stack des_path (stack.nameOf res_path) ckpt_path)) ∧
    ((serverPutNames stack resource ckpt_path hash).isSome ↔
      ReceiverFits stack resource.dirStr resource.nameStr ckpt_path) ∧
    ((serverGetNames stack resource).isSome ↔
      resource.dirStr.length + resource.nameStr.length + 1 < MAX_PATH_LENGTH ∧
        SenderFits resource.nameStr) := by
  refine ⟨?_, ?_, ?_, ?_⟩
  · exact clientPutNames_isSome_iff stack res_path (Nat.lt_of_le_of_lt des_short (by decide))
  · exact clientGetNames_isSome_iff stack hash res_path clean_des clean_ckpt
  · exact serverPutNames_isSome_iff stack hash resource clean_ckpt
  · exact serverGetNames_isSome_iff stack resource

theorem names_fit_small :
    (clientPutNames (Stack.zeros []) [slash, 97] [slash, 100]).isSome ↔
      (Accepted [slash, 97] → SenderFits ((Stack.zeros []).nameOf [slash, 97])) := by
  have clean_des : (0 : UInt8) ∉ [slash, 100] := by decide
  have clean_ckpt : (0 : UInt8) ∉ [slash, 99] := by decide
  exact (names_fit_iff (Stack.zeros []) (cleared _)
    { resource_size := 0, resource_name := cleared _, resource_dir := cleared _ } [slash, 97]
    clean_des clean_ckpt (by decide)).1

/-- A name of 252 characters is accepted and does not fit with its suffix. -/
theorem name_overruns :
    Accepted (slash :: List.replicate 252 97) ∧
      clientPutNames (Stack.zeros []) (slash :: List.replicate 252 97) [slash, 100] = none := by
  have accepted : Accepted (slash :: List.replicate 252 97) := by
    decide +kernel
  refine ⟨accepted, Option.not_isSome_iff_eq_none.mp ?_⟩
  rw [clientPutNames_isSome_iff _ _ (by decide)]
  intro fits
  have long : ¬ SenderFits ((Stack.zeros []).nameOf (slash :: List.replicate 252 97)) := by
    unfold SenderFits
    decide +kernel
  exact long (fits accepted)

/-- A copy that fits is what the handlers take it for. -/
theorem copy_eq_strcpy {n : Nat} {buffer buffer' : List.Vector UInt8 n} {s : CStr}
    (copied : copy 0 buffer s = some buffer') : buffer' = strcpy buffer s := by
  apply List.Vector.eq
  have cells : buffer'.toList = s ++ 0 :: buffer.toList.drop (s.length + 1) := by
    rw [toList_store copied]
    simp
  show _ = (s ++ 0 :: buffer.toList.drop (s.length + 1) ++ List.replicate n 0).take n
  rw [← cells]
  exact (List.take_left' buffer'.toList_length).symm

/-- The names that fit are those the receiver works with. -/
theorem recvfileNames_eq (stack : Stack) {resource_name resource_path ckpt_path : CStr} {hash : Hash}
    (clean_name : (0 : UInt8) ∉ resource_name) (clean_ckpt : (0 : UInt8) ∉ ckpt_path)
    {names : ReceiverNames}
    (composed : recvfileNames stack resource_name resource_path ckpt_path hash = some names) :
    names.ckpt_resource_path = checkpointPath stack.memory ckpt_path hash ∧
      names.ckpt = strcpy stack.memory.path resource_path ∧
      names.tmp_ckpt_resource_path = checkpointPath stack.memory ckpt_path hash ++ dotTmp ∧
      names.zip_filename = resource_name ++ dotZip := by
  unfold recvfileNames at composed
  obtain ⟨ckpt_resource_path, ckpt_composed, composed⟩ := Option.bind_eq_some_iff.mp composed
  obtain ⟨ckpt, copied, composed⟩ := Option.bind_eq_some_iff.mp composed
  obtain ⟨tmp, tmp_composed, composed⟩ := Option.bind_eq_some_iff.mp composed
  obtain ⟨zip, zip_composed, same⟩ := Option.bind_eq_some_iff.mp composed
  cases same
  have ckpt_reads : cstr ckpt_resource_path.toList = checkpointPath stack.memory ckpt_path hash := by
    have reads : cstr ckpt_resource_path.toList = _ :=
      (compose_holds clean_ckpt (ckpt_parts_clean stack hash) ckpt_composed).text
    rw [reads, checkpointPath_eq]
    simp
  have tmp_reads : cstr tmp.toList = cstr ckpt_resource_path.toList ++ dotTmp :=
    (compose_holds (zero_not_mem_cstr _) (by decide) tmp_composed).text
  have zip_reads : cstr zip.toList = resource_name ++ dotZip :=
    (compose_holds clean_name (by decide) zip_composed).text
  exact ⟨ckpt_reads, copy_eq_strcpy copied, by rw [tmp_reads, ckpt_reads], zip_reads⟩

end Filerail
