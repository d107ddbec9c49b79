/-
Module: Filerail.Proofs.Storage
Layer: Proofs
Purpose: What `filerail_check_storage_size` promises. It divides the size the sender advertises by the
  size of a block, rounding down, and wants more free blocks than that. The receiver stores more: the
  archive and the files that come out of it, each rounded up to whole blocks, and of a directory the
  sender advertises the size of the node only. So the check is sound exactly for those resources that
  need at most one block more than the quotient.
Imports: Mathlib.Algebra.Order.Floor.Div, Mathlib.GroupTheory.GroupAction.Ring,
  Filerail.Proofs.Folder
Main exports: stored, Promises, Offered, storage_sound_iff
-/
import Mathlib.Algebra.Order.Floor.Div
import Mathlib.GroupTheory.GroupAction.Ring
import Filerail.Proofs.Folder

namespace Filerail

open FileStore ProgramLogic

variable {lib : Lib}

/-- The blocks of `frsize` bytes the receiver needs: for the archive, and for each of the files. -/
def stored (lib : Lib) (frsize : UInt64) (es : Entries) : Nat :=
  (lib.zip.archive es).length ⌈/⌉ frsize.toNat +
    (es.map (fun entry => entry.2.length ⌈/⌉ frsize.toNat)).sum

/-- Whenever the check accepts the size, whatever happens, the free blocks it was told of are enough. -/
def Promises (lib : Lib) (size frsize : UInt64) (es : Entries) : Prop :=
  ∀ (w : World) (t : SysTape lib) (bavail : UInt64),
    Prog.Reach (tapeSem still (sysSem lib True)) (checkStorageSize size, ⟨w, []⟩) (.ret true, t) →
    (⟨.loc (.statvfs [slash]), some (frsize, bavail)⟩ : SysEvent lib) ∈ t.log →
    stored lib frsize es ≤ bavail.toNat

/-! ### The check -/

/-- A run of the check that accepts has compared what it was told. -/
theorem checkStorageSize_wp (size : UInt64) (w : World) :
    Wp (tapeSem still (sysSem lib True)) (fun _ _ => True) False
      (checkStorageSize size : L lib Bool) ⟨w, []⟩
      (fun r t => r = true → ∀ frsize bavail,
        (⟨.loc (.statvfs [slash]), some (frsize, bavail)⟩ : SysEvent lib) ∈ t.log →
        size / frsize < bavail) := by
  unfold checkStorageSize
  simp only [Prog.bind_eq, Prog.pure_eq]
  apply wp_sys_bind trivial False.elim
  intro r w' _
  cases r with
  | none =>
      apply wp_ret.mpr
      intro impossible
      cases impossible
  | some told =>
      apply wp_ret.mpr
      intro accepted frsize bavail logged
      cases List.mem_singleton.mp logged
      exact of_decide_eq_true accepted

/-- What is compared decides. -/
theorem checkStorageSize_accepts {size frsize bavail : UInt64} (some_block : frsize ≠ 0)
    (less : size / frsize < bavail) (w : World) :
    Prog.Reach (tapeSem still (sysSem lib True))
      ((checkStorageSize size : L lib Bool), (⟨w, []⟩ : SysTape lib))
      (.ret true, ⟨w, [⟨.loc (.statvfs [slash]), some (frsize, bavail)⟩]⟩) := by
  have told : Does lib w (.statvfs [slash]) (some (frsize, bavail)) w :=
    ⟨⟨frsize, bavail, rfl, some_block⟩, rfl⟩
  have answer : tapeSem still (sysSem lib True) (⟨w, []⟩ : SysTape lib) (.statvfs [slash])
      (some (frsize, bavail)) ⟨w, [⟨.loc (.statvfs [slash]), some (frsize, bavail)⟩]⟩ :=
    ⟨w, w, rfl, Or.inl told, rfl⟩
  have step : Prog.Step (tapeSem still (sysSem lib True))
      ((checkStorageSize size : L lib Bool), (⟨w, []⟩ : SysTape lib)) _ := .call answer
  have decided : decide (size / frsize < bavail) = true := decide_eq_true less
  rw [← decided]
  exact .single step

/-- The check keeps its promise if at most one block more than the quotient is needed, or if the
    quotient is too large to accept anything. -/
theorem promises_iff {size frsize : UInt64} (some_block : frsize ≠ 0) (es : Entries) :
    Promises lib size frsize es ↔
      size.toNat / frsize.toNat = 2 ^ 64 - 1 ∨
        stored lib frsize es ≤ size.toNat / frsize.toNat + 1 := by
  have quotient : (size / frsize).toNat = size.toNat / frsize.toNat := UInt64.toNat_div ..
  have bound := (size / frsize).toNat_lt
  constructor
  · intro promises
    by_cases full : size.toNat / frsize.toNat = 2 ^ 64 - 1
    · exact Or.inl full
    · right
      have next : (UInt64.ofNat (size.toNat / frsize.toNat + 1)).toNat =
          size.toNat / frsize.toNat + 1 := by
        rw [UInt64.toNat_ofNat']
        omega
      have less : size / frsize < UInt64.ofNat (size.toNat / frsize.toNat + 1) := by
        rw [UInt64.lt_iff_toNat_lt, next, quotient]
        exact Nat.lt_succ_self _
      have enough := promises ⟨Store.bare, []⟩ _ _ (checkStorageSize_accepts some_block less _)
        List.mem_cons_self
      rw [next] at enough
      exact enough
  · intro condition w t bavail run logged
    have less := (checkStorageSize_wp size w).sound _ _ run rfl frsize bavail logged
    rw [UInt64.lt_iff_toNat_lt, quotient] at less
    have most := bavail.toNat_lt
    rcases condition with full | enough
    · omega
    · omega

/-! ### What the sender offers -/

/-- Zip a resource into the archive `i`, which has been opened, and close it. -/
def zipOffer (lib : Lib) (i : Nat) (name : Name) (stat_resource : Stat) : L lib Bool := do
  let (zip, ok) ←
    if stat_resource.st_mode = .dir then zipFolder MAX_PATH_LENGTH ⟨i, [], none⟩ name.1
    else zipFile ⟨i, [], none⟩ name.1
  zipClose (some zip)
  return ok

/-- The sender finds the resource, advertises its size, and comes to an archive with the entries. -/
structure Offered (lib : Lib) (w : World) (name : Name) (i : Nat) (size : UInt64) (es : Entries) :
    Prop where
  offers : ∃ stat_resource w', StatOf w.fs (w.loc name.1) (some stat_resource) ∧
    size = UInt64.ofNat stat_resource.st_size ∧
    Prog.Reach (sysSem lib False) (zipOffer lib i name stat_resource, w) (.ret true, w') ∧
    lib.zip.entries (w'.fs.data i) = some es

section Regular

variable {w : World} {name : Name} {i j : Nat}

theorem loc_name (w : World) (name : Name) : w.loc name.1 = w.cwd ++ [name] := by
  have path := loc_descend w name []
  rw [descend_nil] at path
  exact path

/-- Zipping a regular file comes to an archive of it. -/
theorem zipOffer_regular (lib : Lib) (file : w.fs.node (w.cwd ++ [name]) = some (.file j))
    (other : j ≠ i) (size : Nat) :
    Wp (sysSem lib False) (fun _ _ => True) True (zipOffer lib i name ⟨.reg, size⟩) w
      (fun ok w' => ok = true ∧
        lib.zip.entries (w'.fs.data i) = some [(name.1, w.fs.data j)]) := by
  have leads : w.fs.node (w.target name.1) = some (.file j) := by
    rw [World.target, loc_name, Store.follow_eq_self]
    · exact file
    · intro t link
      rw [file] at link
      cases link
  unfold zipOffer
  rw [if_neg (by simp)]
  simp only [Prog.bind_eq, Prog.pure_eq]
  apply wp_bind
  have filled : Filled (⟨i, [], none⟩ : Zip).ino w w := .refl i w
  apply wp_mono (zipEntry_adds filled leads other)
  rintro out w₁ ⟨_, rfl⟩
  apply wp_works_bind (by simp)
  rintro _ w₂ ⟨written, closed, rfl⟩
  apply wp_ret.mpr
  constructor
  · rfl
  · rw [closed rfl]
    dsimp only
    rw [Store.setData_data_self]
    exact lib.zip.entries_archive _

/-- A regular file is offered as itself. -/
theorem Offered.regular {size : UInt64} {es : Entries} (offered : Offered lib w name i size es)
    (file : w.fs.node (w.cwd ++ [name]) = some (.file j)) (other : j ≠ i) :
    size = UInt64.ofNat (w.fs.data j).length ∧ es = [(name.1, w.fs.data j)] := by
  obtain ⟨st, w', found, rfl, run, read⟩ := offered.offers
  rw [loc_name, statOf_file file] at found
  cases found
  obtain ⟨_, known⟩ := (zipOffer_regular lib file other (w.fs.data j).length).sound _ _ run
  rw [read] at known
  exact ⟨rfl, Option.some.inj known⟩

theorem offered_regular (lib : Lib) (file : w.fs.node (w.cwd ++ [name]) = some (.file j))
    (other : j ≠ i) :
    Offered lib w name i (UInt64.ofNat (w.fs.data j).length) [(name.1, w.fs.data j)] := by
  have packs := zipOffer_regular lib file other (w.fs.data j).length
  obtain ⟨ok, w', run⟩ := (packs.ends trivial).returns
  obtain ⟨rfl, read⟩ := packs.sound _ _ run
  constructor
  refine ⟨⟨.reg, (w.fs.data j).length⟩, w', ?_, rfl, run, read⟩
  rw [loc_name]
  exact (statOf_file file).mpr rfl

end Regular

/-- Rounding down and one more block is enough for a file only if it ends with a block, and the
    archive takes no more than that one block. -/
theorem file_fits_iff {f n z : Nat} (pos : 0 < f) :
    z ⌈/⌉ f + n ⌈/⌉ f ≤ n / f + 1 ↔ z = 0 ∨ (f ∣ n ∧ z ≤ f) := by
  have none : z ⌈/⌉ f ≤ 0 ↔ z = 0 := by
    rw [ceilDiv_le_iff_le_mul pos]
    omega
  have one : z ⌈/⌉ f ≤ 1 ↔ z ≤ f := by
    rw [ceilDiv_le_iff_le_mul pos, Nat.mul_one]
  have parts := Nat.div_add_mod n f
  by_cases whole : f ∣ n
  · have exactly : n ⌈/⌉ f = n / f := by
      obtain ⟨k, rfl⟩ := whole
      rw [Nat.mul_div_cancel_left _ pos]
      apply Nat.le_antisymm
      · exact (ceilDiv_le_iff_le_mul pos).mpr (Nat.le_refl _)
      · have enough := (ceilDiv_le_iff_le_mul pos).mp (Nat.le_refl (f * k ⌈/⌉ f))
        exact Nat.le_of_mul_le_mul_left enough pos
    rw [exactly]
    omega
  · have rest : 0 < n % f := Nat.pos_of_ne_zero (fun zero => whole (Nat.dvd_of_mod_eq_zero zero))
    have short := Nat.mod_lt n pos
    have more : n ⌈/⌉ f = n / f + 1 := by
      apply Nat.le_antisymm
      · rw [ceilDiv_le_iff_le_mul pos, Nat.mul_add]
        omega
      · by_contra fewer
        have enough : n ⌈/⌉ f ≤ n / f := by omega
        rw [ceilDiv_le_iff_le_mul pos] at enough
        omega
    rw [more]
    constructor
    · intro enough
      left
      omega
    · rintro (zero | ⟨impossible, _⟩)
      · have nothing := none.mpr zero
        omega
      · exact absurd impossible whole

/-- The storage check is sound for the resources that need at most one block more than the quotient
    it computes, and for no others. For a regular file this means that it takes whole blocks and its
    archive no more than one. -/
theorem storage_sound_iff {w : World} {name : Name} {i : Nat} {size frsize : UInt64} {es : Entries}
    (offered : Offered lib w name i size es) (some_block : frsize ≠ 0) :
    (Promises lib size frsize es ↔ size.toNat / frsize.toNat = 2 ^ 64 - 1 ∨
      stored lib frsize es ≤ size.toNat / frsize.toNat + 1) ∧
    ∀ j, w.fs.node (w.cwd ++ [name]) = some (.file j) → j ≠ i → (w.fs.data j).length < 2 ^ 63 →
      (Promises lib size frsize es ↔ (lib.zip.archive es).length = 0 ∨
        (frsize.toNat ∣ (w.fs.data j).length ∧ (lib.zip.archive es).length ≤ frsize.toNat)) := by
  have pos : 0 < frsize.toNat := by
    rw [Nat.pos_iff_ne_zero]
    intro zero
    exact some_block (UInt64.toNat_inj.mp zero)
  constructor
  · exact promises_iff some_block es
  · intro j file other small
    obtain ⟨rfl, rfl⟩ := offered.regular file other
    rw [promises_iff some_block, ← file_fits_iff pos]
    have size : (UInt64.ofNat (w.fs.data j).length).toNat = (w.fs.data j).length := by
      rw [UInt64.toNat_ofNat']
      omega
    have quotient := Nat.div_le_self (w.fs.data j).length frsize.toNat
    rw [size, stored, List.map_singleton, List.sum_singleton]
    constructor
    · rintro (full | enough)
      · omega
      · exact enough
    · exact Or.inr

/-- The directory `s` with a file `a` in it. -/
def littleWorld (content : List UInt8) : World :=
  ⟨furnished.setData 0 content, [letter 115]⟩

theorem offered_little (content : List UInt8) :
    Offered reference (littleWorld content) (letter 97) 1 (UInt64.ofNat content.length)
      [([97], content)] := by
  have file : (littleWorld content).fs.node ((littleWorld content).cwd ++ [letter 97]) =
      some (.file 0) := rfl
  have offered := offered_regular reference file (Nat.zero_ne_one)
  have here : (littleWorld content).fs.data 0 = content := Store.setData_data_self _ _ _
  rw [here] at offered
  exact offered

theorem storage_sound_small : Promises reference 0 4096 [([97], [])] := by
  apply ((storage_sound_iff (offered_little []) (by decide)).2 0 rfl (by decide) (by decide)).mpr
  right
  decide

/-- The check accepts a file of one byte where one block is free, and two are needed. -/
theorem storage_overcommits :
    Offered reference (littleWorld [104]) (letter 97) 1 1 [([97], [104])] ∧
      ¬ Promises reference 1 4096 [([97], [104])] := by
  constructor
  · exact offered_little [104]
  · intro promises
    rcases (promises_iff (by decide) _).mp promises with full | enough
    · revert full
      decide
    · revert enough
      decide

end Filerail
