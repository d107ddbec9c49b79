/-
Module: Filerail.Proofs.Folder
Layer: Proofs
Purpose: What `filerail_zip_folder` makes of a directory. The walk names every file of the tree once,
  with its content, and no directory: a directory is only implied by the files further down. So the
  archive unpacks to the same tree if and only if every directory has a file somewhere below it.
Imports: Filerail.Core.Reference, Filerail.Logic.Unpacking, Filerail.Proofs.Conduct
Main exports: Folder, Lists, zipFolder_lists, Lossless, zipFolder_lossless_iff
-/
import Filerail.Core.Reference
import Filerail.Logic.Unpacking
import Filerail.Proofs.Conduct

namespace Filerail

open FileStore ProgramLogic

variable {lib : Lib}

/-! ### The paths of a tree -/

/-- The path of something below a directory. -/
def descend (path : CStr) (rest : Loc) : CStr :=
  path ++ rest.flatMap (fun name => slash :: name.1)

@[simp] theorem descend_nil (path : CStr) : descend path [] = path := by
  rw [descend, List.flatMap_nil, List.append_nil]

theorem descend_concat (path : CStr) (rest : Loc) (name : Name) :
    descend path (rest ++ [name]) = descend path rest ++ slash :: name.1 := by
  simp [descend]

theorem walk_descend (l : Loc) (name : Name) (rest : Loc) :
    walk l [] (descend name.1 rest) = l ++ name :: rest := by
  have names := walk_flatMap l (name :: rest)
  rw [List.flatMap_cons, List.cons_append, walk, if_pos rfl, enter_nil] at names
  exact names

/-- Different places in a tree have different paths. -/
theorem descend_injective {name : Name} {rest rest' : Loc}
    (same : descend name.1 rest = descend name.1 rest') : rest = rest' := by
  have walks := walk_descend [] name rest
  rw [same, walk_descend] at walks
  cases walks
  rfl

theorem loc_descend (w : World) (name : Name) (rest : Loc) :
    w.loc (descend name.1 rest) = w.cwd ++ name :: rest := by
  have relative : (descend name.1 rest).head? ≠ some slash := by
    rw [descend, List.head?_append_of_ne_nil _ name.2.1]
    intro first
    exact name.2.2.1 (List.mem_of_mem_head? first)
  rw [World.loc, resolve_relative _ relative, walk_descend]

theorem length_lt_descend (name : Name) (rest : Loc) :
    rest.length < (descend name.1 rest).length := by
  have some_name : 0 < name.1.length := List.length_pos_of_ne_nil name.2.1
  have names : rest.length ≤ (rest.flatMap (fun name => slash :: name.1)).length := by
    induction rest with
    | nil => exact Nat.zero_le _
    | cons next rest ih =>
        rw [List.flatMap_cons, List.length_append, List.length_cons, List.length_cons]
        omega
  rw [descend, List.length_append]
  omega

/-! ### The tree -/

/-- A directory in the current one with nothing in it but files and directories, all of whose paths
    fit in the buffer of the code. The archive `i` is none of the files. -/
structure Folder (w : World) (name : Name) (i : Nat) : Prop where
  dir : w.fs.node (w.cwd ++ [name]) = some .dir
  plain : ∀ rest x, w.fs.node (w.cwd ++ name :: rest) = some x → x = .dir ∨ ∃ j, x = .file j
  apart : ∀ rest, w.fs.node (w.cwd ++ name :: rest) ≠ some (.file i)
  fits : ∀ rest, w.fs.node (w.cwd ++ name :: rest) ≠ none →
    (descend name.1 rest).length < MAX_PATH_LENGTH

/-- Only the archive `i` has been written to. -/
def Filled (i : Nat) (w w' : World) : Prop :=
  ∃ written, w' = { w with fs := w.fs.setData i written }

theorem Filled.write {i : Nat} {w w' : World} (filled : Filled i w w') (written : List UInt8) :
    Filled i w { w' with fs := w'.fs.setData i written } := by
  obtain ⟨before, rfl⟩ := filled
  refine ⟨written, ?_⟩
  rw [Store.setData_setData]

theorem Filled.refl (i : Nat) (w : World) : Filled i w w :=
  ⟨w.fs.data i, by rw [Store.setData_self]⟩

theorem Filled.node {i : Nat} {w w' : World} (filled : Filled i w w') : w'.fs.node = w.fs.node := by
  obtain ⟨written, rfl⟩ := filled
  rfl

theorem Filled.data {i j : Nat} {w w' : World} (filled : Filled i w w') (other : j ≠ i) :
    w'.fs.data j = w.fs.data j := by
  obtain ⟨written, rfl⟩ := filled
  exact Store.setData_data_ne _ other _

/-- While the archive is filled, names lead where they led. -/
theorem Filled.target {i : Nat} {w w' : World} (filled : Filled i w w') (path : CStr) :
    w'.target path = w.target path := by
  obtain ⟨written, rfl⟩ := filled
  exact Store.follow_congr (fun _ _ => Iff.rfl) _ _

/-- The entries are the files of a part of the tree, each once. -/
structure Lists (w : World) (name : Name) (part : Loc → Prop) (es : Entries) : Prop where
  mem : ∀ entry, entry ∈ es ↔ ∃ rest content, part rest ∧
    w.fs.fileAt (w.cwd ++ name :: rest) = some content ∧ entry = (descend name.1 rest, content)
  nodup : (es.map Prod.fst).Nodup

namespace Lists

variable {w : World} {name : Name} {part part' : Loc → Prop} {es es' : Entries}

theorem nil (none_there : ∀ rest, ¬ part rest) : Lists w name part [] := by
  constructor
  · intro entry
    constructor
    · intro impossible
      cases impossible
    · rintro ⟨rest, _, here, _⟩
      exact absurd here (none_there rest)
  · exact List.nodup_nil

/-- The files of two parts that have nothing in common. -/
theorem append (lists : Lists w name part es) (lists' : Lists w name part' es')
    (disjoint : ∀ rest, part rest → ¬ part' rest) :
    Lists w name (fun rest => part rest ∨ part' rest) (es ++ es') := by
  constructor
  · intro entry
    rw [List.mem_append, lists.mem, lists'.mem]
    constructor
    · rintro (⟨rest, content, here, found⟩ | ⟨rest, content, here, found⟩)
      · exact ⟨rest, content, Or.inl here, found⟩
      · exact ⟨rest, content, Or.inr here, found⟩
    · rintro ⟨rest, content, here | here, found⟩
      · exact Or.inl ⟨rest, content, here, found⟩
      · exact Or.inr ⟨rest, content, here, found⟩
  · rw [List.map_append, List.nodup_append]
    refine ⟨lists.nodup, lists'.nodup, ?_⟩
    intro a left b right same
    obtain ⟨entry, member, rfl⟩ := List.mem_map.mp left
    obtain ⟨entry', member', rfl⟩ := List.mem_map.mp right
    obtain ⟨rest, _, here, _, rfl⟩ := (lists.mem entry).mp member
    obtain ⟨rest', _, here', _, rfl⟩ := (lists'.mem entry').mp member'
    cases descend_injective same
    exact disjoint rest here here'

theorem congr (lists : Lists w name part es) (same : ∀ rest, part rest ↔ part' rest) :
    Lists w name part' es := by
  have parts : part = part' := by
    funext rest
    exact propext (same rest)
  rw [← parts]
  exact lists

/-- One file. -/
theorem single {rest : Loc} {j : Nat} (file : w.fs.node (w.cwd ++ name :: rest) = some (.file j)) :
    Lists w name (rest <+: ·) [(descend name.1 rest, w.fs.data j)] := by
  constructor
  · intro entry
    rw [List.mem_singleton]
    constructor
    · rintro rfl
      exact ⟨rest, _, List.prefix_rfl, Store.fileAt_of_node file, rfl⟩
    · rintro ⟨rest', content, above, found, rfl⟩
      -- nothing is below a file
      have same : rest = rest' := by
        by_contra other
        obtain ⟨k, there, _⟩ := Store.fileAt_eq_some_iff.mp found
        have up : w.cwd ++ name :: rest <+: w.cwd ++ name :: rest' := by
          rw [List.prefix_append_right_inj]
          exact List.cons_prefix_cons.mpr ⟨rfl, above⟩
        have impossible := w.fs.dir_above (by rw [there]; simp) up (by simpa using other)
        rw [file] at impossible
        cases impossible
      subst same
      rw [Store.fileAt_of_node file] at found
      cases found
      rfl
  · exact List.nodup_singleton _

end Lists

/-! ### The walk -/

/-- A call that does what it is there for. -/
theorem wp_works_bind {α : Type} {e : Sys lib.md5.Ctx} {f : e.Resp → L lib α} {w : World}
    {post : α → World → Prop} (alive : e ≠ .crash)
    (next : ∀ r w', Does lib w e r w' →
      Wp (sysSem lib False) (fun _ _ => True) True (f r) w' post) :
    Wp (sysSem lib False) (fun _ _ => True) True (Prog.bind (sys e) f) w post := by
  apply wp_perform_bind.mpr
  refine ⟨trivial, ?_, ?_⟩
  · intro _
    obtain ⟨r, w', does⟩ := does_answers w e alive
    exact ⟨r, w', Or.inl does⟩
  · intro r w' answer
    rcases answer with does | ⟨impossible, _⟩
    · exact next r w' does
    · exact impossible.elim

/-- What a part of the walk has added to the archive. -/
structure Packed (w : World) (name : Name) (part : Loc → Prop) (zip : Zip) (out : Zip × Bool)
    (w' : World) : Prop where
  ok : out.2 = true
  ino : out.1.ino = zip.ino
  current : out.1.current = none
  filled : Filled zip.ino w w'
  entries : ∃ es, out.1.entries = zip.entries ++ es ∧ Lists w name part es

section Walk

variable {w w' : World} {name : Name} {zip : Zip}

/-- What is in the tree is not a link, so its path leads to it. -/
theorem Folder.target {i : Nat} (folder : Folder w name i) (rest : Loc) :
    w.target (descend name.1 rest) = w.cwd ++ name :: rest := by
  rw [World.target, loc_descend]
  apply Store.follow_eq_self
  intro t link
  rcases folder.plain rest _ link with impossible | ⟨j, impossible⟩
  · cases impossible
  · cases impossible

/-- A file goes into the archive under the path it was given by. -/
theorem zipEntry_adds (filled : Filled zip.ino w w') {path : CStr} {j : Nat}
    (file : w.fs.node (w.target path) = some (.file j)) (other : j ≠ zip.ino) :
    Wp (sysSem lib False) (fun _ _ => True) True (zipEntry zip path) w'
      (fun out w'' => Filled zip.ino w w'' ∧
        out = (⟨zip.ino, zip.entries ++ [(path, w.fs.data j)], none⟩, true)) := by
  unfold zipEntry
  simp only [Prog.bind_eq, Prog.pure_eq]
  apply wp_works_bind (by simp)
  rintro r w₁ ⟨written, rfl, rfl⟩
  have filled₁ := filled.write written
  apply wp_works_bind (by simp)
  intro r w₂ does
  rcases does with ⟨k, _, _, written₂, node, current, rfl, rfl⟩ | ⟨_, _, unopened | no_file⟩
  · cases current
    rw [filled₁.target, filled₁.node, file] at node
    cases node
    apply wp_works_bind (by simp)
    intro r w₃ does
    rcases does with ⟨_, written₃, current, rfl, rfl⟩ | ⟨unopened, _, _⟩
    · cases current
      apply wp_ret.mpr
      constructor
      · exact (filled₁.write written₂).write written₃
      · rw [filled₁.data other]
        rfl
    · cases unopened
  · cases unopened
  · rw [filled₁.target, filled₁.node] at no_file
    exact absurd file (no_file j)

theorem zipEntry_packed (folder : Folder w name zip.ino) (filled : Filled zip.ino w w') {rest : Loc}
    {j : Nat} (file : w.fs.node (w.cwd ++ name :: rest) = some (.file j)) :
    Wp (sysSem lib False) (fun _ _ => True) True (zipEntry zip (descend name.1 rest)) w'
      (Packed w name (rest <+: ·) zip) := by
  have other : j ≠ zip.ino := by
    rintro rfl
    exact folder.apart rest file
  have leads : w.fs.node (w.target (descend name.1 rest)) = some (.file j) := by
    rw [folder.target]
    exact file
  refine wp_mono (zipEntry_adds filled leads other) ?_
  rintro out w'' ⟨filled', rfl⟩
  exact ⟨rfl, rfl, rfl, filled', _, rfl, .single file⟩

/-- The rest of a directory, after one of its entries. -/
theorem Packed.trans {part part' : Loc → Prop} {out out' : Zip × Bool} {w'' : World}
    (packed : Packed w name part zip out w') (packed' : Packed w name part' out.1 out' w'')
    (disjoint : ∀ rest, part rest → ¬ part' rest) :
    Packed w name (fun rest => part rest ∨ part' rest) zip out' w'' := by
  obtain ⟨es, entries, lists⟩ := packed.entries
  obtain ⟨es', entries', lists'⟩ := packed'.entries
  constructor
  · exact packed'.ok
  · exact packed'.ino.trans packed.ino
  · exact packed'.current
  · rw [← packed.ino]
    exact packed'.filled
  · refine ⟨es ++ es', ?_, lists.append lists' disjoint⟩
    rw [entries', entries, List.append_assoc]

theorem Packed.congr {part part' : Loc → Prop} {out : Zip × Bool}
    (packed : Packed w name part zip out w') (same : ∀ rest, part rest ↔ part' rest) :
    Packed w name part' zip out w' := by
  obtain ⟨es, entries, lists⟩ := packed.entries
  exact ⟨packed.ok, packed.ino, packed.current, packed.filled, es, entries, lists.congr same⟩

/-- What is below some of the entries of a directory. -/
def Beneath (rest : Loc) (names : List Name) (below : Loc) : Prop :=
  ∃ n ∈ names, rest ++ [n] <+: below

/-- Entries of a directory have nothing in common. -/
theorem Beneath.disjoint {rest below : Loc} {n : Name} {names : List Name} (fresh : n ∉ names)
    (above : rest ++ [n] <+: below) : ¬ Beneath rest names below := by
  rintro ⟨m, member, above'⟩
  have same : rest ++ [n] = rest ++ [m] := by
    apply (List.prefix_of_prefix_length_le above above' _).eq_of_length
    · simp
    · simp
  obtain ⟨_, names_eq⟩ := List.append_inj' same rfl
  cases names_eq
  exact fresh member

theorem Beneath.cons_iff {rest below : Loc} {n : Name} {names : List Name} :
    rest ++ [n] <+: below ∨ Beneath rest names below ↔ Beneath rest (n :: names) below := by
  constructor
  · rintro (above | ⟨m, member, above⟩)
    · exact ⟨n, List.mem_cons_self, above⟩
    · exact ⟨m, List.mem_cons_of_mem _ member, above⟩
  · rintro ⟨m, member, above⟩
    rcases List.mem_cons.mp member with rfl | member
    · exact Or.inl above
    · exact Or.inr ⟨m, member, above⟩

/-- The loop over the entries of a directory, the walk of its subdirectories being given. -/
theorem zipEntries_packed {inner : Zip → CStr → L lib (Zip × Bool)} {rest : Loc}
    (packs : ∀ (n : Name) (zip : Zip) (w' : World), Folder w name zip.ino → zip.current = none →
      Filled zip.ino w w' → w.fs.node (w.cwd ++ name :: (rest ++ [n])) = some .dir →
      Wp (sysSem lib False) (fun _ _ => True) True (inner zip (descend name.1 (rest ++ [n]))) w'
        (Packed w name (rest ++ [n] <+: ·) zip))
    (names : List Name) (nodup : names.Nodup)
    (listed : ∀ n ∈ names, w.fs.node (w.cwd ++ name :: (rest ++ [n])) ≠ none)
    (folder : Folder w name zip.ino) (current : zip.current = none) (filled : Filled zip.ino w w') :
    Wp (sysSem lib False) (fun _ _ => True) True (zipEntries inner (descend name.1 rest) zip names) w'
      (Packed w name (Beneath rest names) zip) := by
  induction names generalizing zip w' with
  | nil =>
      apply wp_ret.mpr
      constructor
      · rfl
      · rfl
      · exact current
      · exact filled
      · refine ⟨[], (List.append_nil _).symm, .nil ?_⟩
        rintro _ ⟨n, impossible, _⟩
        cases impossible
  | cons n names ih =>
      rw [List.nodup_cons] at nodup
      have named := listed n List.mem_cons_self
      have uncut : (descend name.1 rest ++ slash :: n.1).take (MAX_PATH_LENGTH - 1) =
          descend name.1 (rest ++ [n]) := by
        have fits := folder.fits _ named
        rw [← descend_concat, List.take_of_length_le]
        omega
      have onwards : ∀ (out : Zip × Bool) (w₁ : World),
          Packed w name (rest ++ [n] <+: ·) zip out w₁ →
          Wp (sysSem lib False) (fun _ _ => True) True
            (if out.2 = true then zipEntries inner (descend name.1 rest) out.1 names
              else .ret (out.1, false)) w₁ (Packed w name (Beneath rest (n :: names)) zip) := by
        intro out w₁ packed
        rw [if_pos packed.ok]
        refine wp_mono (ih nodup.2 ?_ ?_ packed.current ?_) ?_
        · intro m member
          exact listed m (List.mem_cons_of_mem _ member)
        · rw [packed.ino]
          exact folder
        · rw [packed.ino]
          exact packed.filled
        · intro out' w₂ packed'
          apply (packed.trans packed' (fun _ above => Beneath.disjoint nodup.1 above)).congr
          intro below
          exact Beneath.cons_iff
      unfold zipEntries
      simp only [Prog.bind_eq, Prog.pure_eq]
      rw [uncut]
      apply wp_works_bind (by simp)
      rintro r w₁ ⟨found, rfl⟩
      have loc : w₁.loc (descend name.1 (rest ++ [n])) = w.cwd ++ name :: (rest ++ [n]) := by
        obtain ⟨written, rfl⟩ := filled
        exact loc_descend w name _
      rw [loc] at found
      cases here : w.fs.node (w.cwd ++ name :: (rest ++ [n])) with
      | none => exact absurd here named
      | some x =>
          have there : w₁.fs.node (w.cwd ++ name :: (rest ++ [n])) = some x := by
            rw [filled.node]
            exact here
          rcases folder.plain _ x here with rfl | ⟨j, rfl⟩
          · cases r with
            | none =>
                rw [StatOf, there] at found
                cases found
            | some st =>
                simp only [StatOf, there] at found
                dsimp only
                rw [if_pos found]
                exact wp_bind (wp_mono (packs n zip w₁ folder current filled here) onwards)
          · obtain rfl := (statOf_file there).mp found
            dsimp only
            rw [if_neg (by simp)]
            exact wp_bind (wp_mono (zipEntry_packed folder filled here) onwards)

/-- The walk packs the tree below a directory. -/
theorem zipFolder_packed (depth : Nat) {rest : Loc} (deep : MAX_PATH_LENGTH ≤ depth + rest.length)
    (folder : Folder w name zip.ino) (current : zip.current = none) (filled : Filled zip.ino w w')
    (dir : w.fs.node (w.cwd ++ name :: rest) = some .dir) :
    Wp (sysSem lib False) (fun _ _ => True) True (zipFolder depth zip (descend name.1 rest)) w'
      (Packed w name (rest <+: ·) zip) := by
  induction depth generalizing rest zip w' with
  | zero =>
      exfalso
      have fits := folder.fits rest (by rw [dir]; simp)
      have long := length_lt_descend name rest
      omega
  | succ depth ih =>
      unfold zipFolder
      simp only [Prog.bind_eq, Prog.pure_eq]
      apply wp_works_bind (by simp)
      intro r w₁ does
      have target := (filled.target (descend name.1 rest)).trans (folder.target rest)
      rcases does with ⟨_, ⟨names, rfl, perm⟩, rfl⟩ | ⟨no_dir, _, _⟩
      · rw [target] at perm
        have member : ∀ n, n ∈ names ↔ w.fs.node (w.cwd ++ name :: (rest ++ [n])) ≠ none := by
          intro n
          rw [perm.mem_iff, Store.entries_iff, filled.node]
          simp
        refine wp_mono (zipEntries_packed ?_ names ?_ ?_ folder current filled) ?_
        · intro n zip₁ w₂ folder₁ current₁ filled₁ inner
          apply ih _ folder₁ current₁ filled₁ inner
          rw [List.length_append, List.length_singleton]
          omega
        · exact perm.nodup_iff.mpr (Store.entries_nodup _ _)
        · intro n listed
          exact (member n).mp listed
        · intro out w₂ packed
          obtain ⟨es, entries, lists⟩ := packed.entries
          refine ⟨packed.ok, packed.ino, packed.current, packed.filled, es, entries, ?_, lists.nodup⟩
          -- the directory itself is no file
          intro entry
          rw [lists.mem]
          constructor
          · rintro ⟨below, content, ⟨n, _, above⟩, found⟩
            exact ⟨below, content, (List.prefix_append _ _).trans above, found⟩
          · rintro ⟨below, content, ⟨more, rfl⟩, file, same⟩
            cases more with
            | nil =>
                rw [List.append_nil] at file
                simp [Store.fileAt, dir] at file
            | cons n more =>
                refine ⟨_, content, ⟨n, ?_, ?_⟩, file, same⟩
                · obtain ⟨j, there, _⟩ := Store.fileAt_eq_some_iff.mp file
                  rw [member]
                  apply Store.named_above (l := w.cwd ++ name :: (rest ++ n :: more))
                  · rw [there]
                    simp
                  · simp
                · simp
      · rw [target, filled.node] at no_dir
        exact absurd dir no_dir

end Walk

/-! ### The archive and the tree -/

/-- The location is rebuilt below another one. -/
structure Rebuilt (w : World) (name : Name) (fs : Store Name UInt8) (d : Loc) : Prop where
  dirs : ∀ rest, fs.node (d ++ name :: rest) = some .dir ↔
    w.fs.node (w.cwd ++ name :: rest) = some .dir
  files : ∀ rest, fs.fileAt (d ++ name :: rest) = w.fs.fileAt (w.cwd ++ name :: rest)
  only : ∀ l, l ≠ [] → fs.node (d ++ l) ≠ none →
    ∃ rest, l = name :: rest ∧ w.fs.node (w.cwd ++ name :: rest) ≠ none

/-- The entries name each file once, and unpacked into an empty directory, wherever it is, they are
    the tree again. -/
structure Rebuilds (w : World) (name : Name) (es : Entries) : Prop where
  once : (es.map Prod.fst).Nodup
  rebuilds : ∀ (fs : Store Name UInt8) (d : Loc), fs.node d = some .dir →
    (∀ n, fs.node (d ++ [n]) = none) →
    ∃ fs', fs.extract (placements d es) = some fs' ∧ Rebuilt w name fs' d

/-- Zip a directory into the archive `i`, which has been opened, and close it. -/
def zipInto (lib : Lib) (i : Nat) (name : Name) : L lib Bool := do
  let (zip, ok) ← zipFolder MAX_PATH_LENGTH ⟨i, [], none⟩ name.1
  zipClose (some zip)
  return ok

/-- Zipping a directory succeeds, and the archive rebuilds the directory. -/
def Lossless (lib : Lib) (w : World) (name : Name) (i : Nat) : Prop :=
  Wp (sysSem lib False) (fun _ _ => True) True (zipInto lib i name) w
    (fun ok w' => ok = true ∧
      ∃ es, lib.zip.entries (w'.fs.data i) = some es ∧ Rebuilds w name es)

/-- Every directory of the tree has a file somewhere below it. -/
def Populated (w : World) (name : Name) : Prop :=
  ∀ rest, w.fs.node (w.cwd ++ name :: rest) = some .dir →
    ∃ below content, w.fs.fileAt (w.cwd ++ name :: (rest ++ below)) = some content

section Tree

variable {w : World} {name : Name} {i : Nat} {es : Entries}

/-- The entries of a tree as places. -/
theorem Lists.placements (lists : Lists w name (fun _ => True) es) (d l : Loc) (content : List UInt8) :
    (l, content) ∈ Filerail.placements d es ↔
      ∃ rest, l = d ++ name :: rest ∧ w.fs.fileAt (w.cwd ++ name :: rest) = some content := by
  unfold Filerail.placements
  rw [List.mem_map]
  constructor
  · rintro ⟨entry, member, same⟩
    obtain ⟨rest, content', _, file, rfl⟩ := (lists.mem entry).mp member
    rw [walk_descend] at same
    cases same
    exact ⟨rest, rfl, file⟩
  · rintro ⟨rest, rfl, file⟩
    refine ⟨(descend name.1 rest, content), (lists.mem _).mpr ⟨rest, content, trivial, file, rfl⟩, ?_⟩
    rw [walk_descend]

/-- No file of the tree is on the way to another. -/
theorem Lists.apart (lists : Lists w name (fun _ => True) es) (d : Loc) :
    (Filerail.placements d es).Pairwise Store.Apart := by
  unfold Filerail.placements
  rw [List.pairwise_map]
  have distinct := lists.nodup
  rw [List.Nodup, List.pairwise_map] at distinct
  refine distinct.imp_of_mem ?_
  intro a b memberA memberB ne
  obtain ⟨rest, content, _, file, rfl⟩ := (lists.mem a).mp memberA
  obtain ⟨rest', content', _, file', rfl⟩ := (lists.mem b).mp memberB
  have leaf : ∀ {r r' : Loc} {c c' : List UInt8}, r ≠ r' →
      w.fs.fileAt (w.cwd ++ name :: r) = some c → w.fs.fileAt (w.cwd ++ name :: r') = some c' →
      ¬ d ++ name :: r <+: d ++ name :: r' := by
    intro r r' c c' other file file' above
    obtain ⟨j, node, _⟩ := Store.fileAt_eq_some_iff.mp file
    obtain ⟨j', node', _⟩ := Store.fileAt_eq_some_iff.mp file'
    have up : w.cwd ++ name :: r <+: w.cwd ++ name :: r' := by
      rw [List.prefix_append_right_inj] at above ⊢
      exact above
    have impossible := w.fs.dir_above (by rw [node']; simp) up (by simpa using other)
    rw [node] at impossible
    cases impossible
  have other : rest ≠ rest' := by
    rintro rfl
    exact ne rfl
  constructor
  · dsimp only
    rw [walk_descend, walk_descend]
    exact leaf other file file'
  · dsimp only
    rw [walk_descend, walk_descend]
    exact leaf other.symm file' file

/-- What the archive of a tree unpacks to: its files, and the directories with a file below them. -/
theorem Lists.unpacked (lists : Lists w name (fun _ => True) es) {fs : Store Name UInt8} {d : Loc}
    (dir : fs.node d = some .dir) (empty : ∀ n, fs.node (d ++ [n]) = none) :
    ∃ fs', fs.extract (Filerail.placements d es) = some fs' ∧
      Store.Unpacked d (Filerail.placements d es) fs' := by
  apply Store.extract_empty dir empty
  · rintro ⟨l, content⟩ member
    obtain ⟨rest, rfl, _⟩ := (lists.placements d l content).mp member
    obtain ⟨front, last, split⟩ := List.eq_nil_or_concat' (name :: rest) |>.resolve_left (by simp)
    exact ⟨front, last, by rw [split, List.append_assoc]⟩
  · exact lists.apart d

/-- A directory comes out of the archive if there is a file below it. -/
theorem Lists.passes_iff (lists : Lists w name (fun _ => True) es) (folder : Folder w name i)
    (d l : Loc) (some_l : l ≠ []) :
    Store.Passes (Filerail.placements d es) (d ++ l) ↔ ∃ rest, l = name :: rest ∧
      w.fs.node (w.cwd ++ name :: rest) = some .dir ∧
      ∃ below content, w.fs.fileAt (w.cwd ++ name :: (rest ++ below)) = some content := by
  constructor
  · rintro ⟨⟨l', content⟩, member, above⟩
    obtain ⟨r, rfl, file⟩ := (lists.placements d l' content).mp member
    dsimp only at above
    rw [List.dropLast_append_of_ne_nil (by simp), List.prefix_append_right_inj] at above
    obtain ⟨first, rest, rfl⟩ := List.exists_cons_of_ne_nil some_l
    have short := above.length_le
    rw [List.length_dropLast] at short
    obtain ⟨rfl, below, rfl⟩ := List.cons_prefix_cons.mp (above.trans (List.dropLast_prefix _))
    refine ⟨rest, rfl, ?_, below, content, file⟩
    obtain ⟨j, node, _⟩ := Store.fileAt_eq_some_iff.mp file
    apply w.fs.dir_above (l := w.cwd ++ first :: (rest ++ below))
    · rw [node]
      simp
    · simp
    · intro same
      have lengths := congrArg List.length same
      simp only [List.length_append, List.length_cons] at lengths short
      omega
  · rintro ⟨rest, rfl, dir, below, content, file⟩
    refine ⟨(d ++ name :: (rest ++ below), content), (lists.placements d _ _).mpr ⟨_, rfl, file⟩, ?_⟩
    have deeper : below ≠ [] := by
      rintro rfl
      rw [List.append_nil] at file
      simp [Store.fileAt, dir] at file
    have split : d ++ name :: (rest ++ below) = (d ++ name :: rest) ++ below := by simp
    dsimp only
    rw [split, List.dropLast_append_of_ne_nil deeper]
    exact List.prefix_append _ _

/-- What is rebuilt from the files of a tree. -/
theorem Lists.rebuilds (lists : Lists w name (fun _ => True) es) (folder : Folder w name i)
    (inhabited : Populated w name) : Rebuilds w name es where
  once := lists.nodup
  rebuilds fs d dir empty := by
    obtain ⟨fs', extracted, unpacked⟩ := lists.unpacked dir empty
    have dirs : ∀ l, l ≠ [] → (fs'.node (d ++ l) = some .dir ↔
        ∃ rest, l = name :: rest ∧ w.fs.node (w.cwd ++ name :: rest) = some .dir) := by
      intro l some_l
      rw [unpacked.dirs l some_l, lists.passes_iff folder d l some_l]
      constructor
      · rintro ⟨rest, same, here, _⟩
        exact ⟨rest, same, here⟩
      · rintro ⟨rest, same, here⟩
        exact ⟨rest, same, here, inhabited rest here⟩
    refine ⟨fs', extracted, ?_, ?_, ?_⟩
    · intro rest
      rw [dirs _ (by simp)]
      simp
    · intro rest
      apply Option.ext
      intro content
      rw [unpacked.files, lists.placements]
      simp
    · intro l some_l named
      cases here : fs'.node (d ++ l) with
      | none => exact absurd here named
      | some x =>
          rcases unpacked.plain l x here with rfl | ⟨j, rfl⟩
          · obtain ⟨rest, same, there⟩ := (dirs l some_l).mp here
            refine ⟨rest, same, ?_⟩
            rw [there]
            simp
          · have file := (unpacked.files l _).mp (Store.fileAt_of_node here)
            obtain ⟨rest, same, there⟩ := (lists.placements d _ _).mp file
            obtain ⟨k, node, _⟩ := Store.fileAt_eq_some_iff.mp there
            refine ⟨rest, List.append_cancel_left same, ?_⟩
            rw [node]
            simp

/-- A directory that is rebuilt has a file below it. -/
theorem Lists.inhabited (lists : Lists w name (fun _ => True) es) (folder : Folder w name i)
    (rebuilds : Rebuilds w name es) : Populated w name := by
  intro rest here
  have nothing : ∀ n : Name, (Store.bare : Store Name UInt8).node ([] ++ [n]) = none := fun _ => rfl
  obtain ⟨fs, extracted, rebuilt⟩ := rebuilds.rebuilds Store.bare [] rfl nothing
  obtain ⟨fs', extracted', unpacked⟩ := lists.unpacked Store.bare.root_dir nothing
  rw [extracted] at extracted'
  cases extracted'
  have dir := (rebuilt.dirs rest).mpr here
  rw [unpacked.dirs _ (by simp), lists.passes_iff folder _ _ (by simp)] at dir
  obtain ⟨_, same, _, found⟩ := dir
  cases same
  exact found

/-- Zipping a directory comes to an archive of its files. -/
theorem zipInto_lists (lib : Lib) (folder : Folder w name i) :
    Wp (sysSem lib False) (fun _ _ => True) True (zipInto lib i name) w
      (fun ok w' => ok = true ∧
        ∃ es, lib.zip.entries (w'.fs.data i) = some es ∧ Lists w name (fun _ => True) es) := by
  have walk : Wp (sysSem lib False) (fun _ _ => True) True
      (zipFolder MAX_PATH_LENGTH ⟨i, [], none⟩ (descend name.1 [])) w
      (Packed w name ([] <+: ·) ⟨i, [], none⟩) :=
    zipFolder_packed MAX_PATH_LENGTH (Nat.le_refl _) folder rfl (.refl i w) folder.dir
  rw [descend_nil] at walk
  unfold zipInto
  simp only [Prog.bind_eq, Prog.pure_eq]
  refine wp_bind (wp_mono walk ?_)
  intro out w₁ packed
  apply wp_works_bind (by simp)
  rintro _ w₂ ⟨written, closed, rfl⟩
  obtain ⟨es, entries, lists⟩ := packed.entries
  apply wp_ret.mpr
  refine ⟨packed.ok, es, ?_, ?_⟩
  · rw [closed packed.current, entries, packed.ino]
    dsimp only
    rw [Store.setData_data_self, List.nil_append]
    exact lib.zip.entries_archive es
  · apply lists.congr
    intro rest
    simp

/-- An archive that rebuilds a tree leaves no directory of it without a file. -/
theorem Lossless.inhabited (folder : Folder w name i) (lossless : Lossless lib w name i) :
    Populated w name := by
  have both := wp_and lossless (zipInto_lists lib folder)
  obtain ⟨ok, w', run⟩ := (both.ends trivial).returns
  obtain ⟨⟨_, es, read, rebuilds⟩, _, es', read', lists⟩ := both.sound _ _ run
  rw [read] at read'
  cases read'
  exact lists.inhabited folder rebuilds

/-- Archiving loses nothing of a tree if and only if no directory in it is without files. -/
theorem zipFolder_lossless_iff (lib : Lib) (folder : Folder w name i) :
    Lossless lib w name i ↔ Populated w name := by
  constructor
  · intro lossless
    exact lossless.inhabited folder
  · intro inhabited
    refine wp_mono (zipInto_lists lib folder) ?_
    rintro ok w' ⟨succeeds, es, read, lists⟩
    exact ⟨succeeds, es, read, lists.rebuilds folder inhabited⟩

end Tree

/-! ### Two small trees -/

/-- A root with an empty directory `s`. -/
def hollow : Store Name UInt8 :=
  rootWith (letter 115) .dir (fun _ impossible => nomatch impossible)

/-- The same with an empty file `a` in the directory. -/
def furnished : Store Name UInt8 :=
  hollow.attach [letter 115] (letter 97) (.file 0) 1 rfl rfl (Nat.zero_le 1) (by
    intro i same
    cases same
    refine ⟨Nat.one_pos, ?_⟩
    intro l file
    exact absurd (hollow.ino_lt l 0 file) (Nat.lt_irrefl 0))

theorem hollow_node {l : Loc} {x : Node Name} (here : hollow.node l = some x) :
    x = .dir ∧ (l = [] ∨ l = [letter 115]) := by
  have node : hollow.node = Function.update Store.bare.node [letter 115] (some .dir) := rfl
  rw [node] at here
  by_cases top : l = [letter 115]
  · rw [top, Function.update_self] at here
    exact ⟨(Option.some.inj here).symm, Or.inr top⟩
  · rw [Function.update_of_ne top] at here
    cases l with
    | nil => exact ⟨(Option.some.inj here).symm, Or.inl rfl⟩
    | cons n l => cases here

theorem furnished_node {l : Loc} {x : Node Name} (here : furnished.node l = some x) :
    (x = .dir ∧ (l = [] ∨ l = [letter 115])) ∨ (x = .file 0 ∧ l = [letter 115, letter 97]) := by
  have node : furnished.node =
      Function.update hollow.node [letter 115, letter 97] (some (.file 0)) := rfl
  rw [node] at here
  by_cases inner : l = [letter 115, letter 97]
  · rw [inner, Function.update_self] at here
    exact Or.inr ⟨(Option.some.inj here).symm, inner⟩
  · rw [Function.update_of_ne inner] at here
    exact Or.inl (hollow_node here)

theorem folder_hollow : Folder ⟨hollow, []⟩ (letter 115) 0 where
  dir := rfl
  plain rest x here := Or.inl (hollow_node here).1
  apart rest file := by
    have impossible := (hollow_node file).1
    cases impossible
  fits rest named := by
    obtain ⟨x, here⟩ := Option.ne_none_iff_exists'.mp named
    rcases (hollow_node here).2 with impossible | same
    · cases impossible
    · cases same
      decide

theorem folder_furnished : Folder ⟨furnished, []⟩ (letter 115) 1 where
  dir := rfl
  plain rest x here := by
    rcases furnished_node here with ⟨dir, _⟩ | ⟨file, _⟩
    · exact Or.inl dir
    · exact Or.inr ⟨0, file⟩
  apart rest file := by
    rcases furnished_node file with ⟨impossible, _⟩ | ⟨impossible, _⟩
    · cases impossible
    · cases impossible
  fits rest named := by
    obtain ⟨x, here⟩ := Option.ne_none_iff_exists'.mp named
    rcases furnished_node here with ⟨_, impossible | same⟩ | ⟨_, same⟩
    · cases impossible
    · cases same
      decide
    · cases same
      decide

theorem populated_furnished : Populated ⟨furnished, []⟩ (letter 115) := by
  intro rest dir
  rcases furnished_node dir with ⟨_, impossible | same⟩ | ⟨impossible, _⟩
  · cases impossible
  · cases same
    exact ⟨[letter 97], [], rfl⟩
  · cases impossible

theorem zipFolder_lossless_small : Lossless reference ⟨furnished, []⟩ (letter 115) 1 := by
  apply (zipFolder_lossless_iff reference folder_furnished).mpr
  exact populated_furnished

/-- An empty directory is lost. -/
theorem zipFolder_loses_empty : ¬ Lossless reference ⟨hollow, []⟩ (letter 115) 0 := by
  intro lossless
  obtain ⟨below, content, file⟩ := lossless.inhabited folder_hollow [] rfl
  obtain ⟨i, node, _⟩ := Store.fileAt_eq_some_iff.mp file
  obtain ⟨impossible, _⟩ := hollow_node node
  cases impossible

end Filerail
