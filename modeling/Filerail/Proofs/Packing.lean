/-
Module: Filerail.Proofs.Packing
Layer: Proofs
Purpose: A resource that is a regular file always comes to an archive with one entry. This is the
  case of `Packs` in which nothing is left to assume about the archive.
Imports: Filerail.Core.Reference, Filerail.Proofs.Exchange
Main exports: Packable, Packable.packs, smallSender, smallSite
-/
import Filerail.Core.Reference
import Filerail.Proofs.Exchange

namespace Filerail

open FileStore ProgramLogic

variable {lib : Lib}

namespace Sender

/-- The world of the sender once it is in the directory of the resource. -/
def inside (s : Sender) : World :=
  { s.world with cwd := s.world.target s.resource_dir }

end Sender

/-- The resource is a regular file beside which an archive can be written. -/
structure Packable (s : Sender) (content : List UInt8) : Prop where
  home : s.world.fs.node s.world.cwd = some .dir
  dir : s.world.fs.node (s.world.target s.resource_dir) = some .dir
  regular : s.stat_resource.st_mode ≠ .dir
  resource : s.inside.fs.fileAt (s.inside.target s.resource_name) = some content
  apart : s.inside.target s.resource_name ≠ s.inside.target s.zip
  room : (∃ i, s.inside.fs.node (s.inside.target s.zip) = some (.file i)) ∨
    ∃ made, s.inside.fs.create (s.inside.target s.zip) = some made

/-- While the archive is filled: it is the file `i`, and the resource is as it was. -/
structure Filling (s : Sender) (content : List UInt8) (i : Nat) (w : World) : Prop where
  zip : w.fs.node (w.target s.zip) = some (.file i)
  resource : ∃ j, j ≠ i ∧ w.fs.node (w.target s.resource_name) = some (.file j) ∧
    w.fs.data j = content

theorem Filling.write {s : Sender} {content : List UInt8} {i : Nat} {w : World}
    (filling : Filling s content i w) (written : List UInt8) :
    Filling s content i { w with fs := w.fs.setData i written } := by
  obtain ⟨zip, j, other, file, data⟩ := filling
  have target : ∀ path, World.target { w with fs := w.fs.setData i written } path = w.target path :=
    fun path => Store.follow_congr (fun _ _ => Iff.rfl) _ _
  refine ⟨?_, j, other, ?_, ?_⟩
  · rw [target]
    exact zip
  · rw [target]
    exact file
  · exact (Store.setData_data_ne _ other _).trans data

namespace Packable

variable {s : Sender} {content : List UInt8}

/-- The archive is opened. -/
theorem opened (packable : Packable s content) {t : SysTape lib} (here : t.world = s.inside)
    {r : Option Zip} {w' : World} (does : Does lib t.world (.zipOpen s.zip) r w') :
    ∃ i, r = some ⟨i, [], none⟩ ∧ Filling s content i w' := by
  rw [here] at does
  obtain ⟨j, file, data⟩ := Store.fileAt_eq_some_iff.mp packable.resource
  rcases does with ⟨i, zip, rfl, rfl⟩ | ⟨i, fs', made, rfl, rfl⟩ | ⟨_, no_file, stuck, _⟩
  · have other : j ≠ i := by
      rintro rfl
      exact packable.apart (s.inside.fs.ino_inj _ _ _ file zip)
    exact ⟨i, rfl, Filling.write ⟨zip, j, other, file, data⟩ []⟩
  · have target : ∀ path, World.target { s.inside with fs := fs' } path = s.inside.target path :=
      fun path => Store.follow_create made _ _
    have same := (Store.create_spec made).2.2 _ packable.apart
    have after : fs'.node (s.inside.target s.resource_name) = some (.file j) := same.1.trans file
    have kept : fs'.data j = content := by
      have whole := same.2.trans packable.resource
      rw [Store.fileAt_of_node after] at whole
      exact Option.some.inj whole
    refine ⟨i, rfl, ?_, j, ?_, ?_, kept⟩
    · rw [target]
      exact (Store.create_spec made).1
    · rintro rfl
      exact packable.apart (fs'.ino_inj _ _ _ after (Store.create_spec made).1)
    · rw [target]
      exact after
  · rcases packable.room with ⟨i, zip⟩ | ⟨made, possible⟩
    · exact absurd zip (no_file i)
    · rw [stuck] at possible
      cases possible

/-- Adding the resource to the archive and closing it. -/
theorem zipEntry_packs {i : Nat} {t : SysTape lib} (filling : Filling s content i t.world) :
    Wp (Alone lib) (fun _ _ => True) True (zipEntry ⟨i, [], none⟩ s.resource_name) t
      (fun out t' => out = (⟨i, [(s.resource_name, content)], none⟩, true) ∧
        Filling s content i t'.world) := by
  unfold zipEntry
  simp only [Prog.bind_eq, Prog.pure_eq]
  refine wp_does_bind trivial (fun _ => does_answers _ _ (by simp)) (fun r w' does => ?_)
  obtain ⟨written, rfl, rfl⟩ := does
  have filling := filling.write written
  refine wp_does_bind trivial (fun _ => does_answers _ _ (by simp)) (fun r w' does => ?_)
  obtain ⟨j, other, file, data⟩ := filling.resource
  rcases does with ⟨j', name, content', written', file', current, rfl, rfl⟩ |
    ⟨_, _, none_open | no_file⟩
  · have filling := filling.write written'
    cases current
    rw [file] at file'
    cases file'
    refine wp_does_bind trivial (fun _ => does_answers _ _ (by simp)) (fun r w' does => ?_)
    rcases does with ⟨entry, written'', current, rfl, rfl⟩ | ⟨none_open, _, _⟩
    · cases current
      refine wp_ret.mpr ⟨?_, filling.write written''⟩
      rw [← data]
      rfl
    · cases none_open
  · cases none_open
  · exact absurd file (no_file j)

/-- Packing a regular file always comes to the archive of that file. -/
theorem pack_wp (packable : Packable s content) :
    Wp (Alone lib) (fun _ _ => True) True s.pack ⟨s.world, []⟩
      (fun out t => ∃ dir, out = .inr dir ∧ t.world.fs.fileAt (t.world.target s.zip) =
        some (lib.zip.archive [(s.resource_name, content)])) := by
  unfold Sender.pack prepare zipResource
  simp only [Prog.bind_eq, Prog.pure_eq, Prog.bind_assoc]
  refine wp_does_bind trivial (fun _ => does_answers _ _ (by simp)) (fun r w' does => ?_)
  obtain ⟨rfl, rfl⟩ := does
  refine wp_does_bind trivial (fun _ => does_answers _ _ (by simp)) (fun r w' does => ?_)
  rcases does with ⟨rfl, _, rfl⟩ | ⟨_, not_dir, _⟩
  · refine wp_does_bind trivial (fun _ => does_answers _ _ (by simp)) (fun r w' does => ?_)
    obtain ⟨i, rfl, filling⟩ := packable.opened rfl does
    dsimp only
    rw [if_neg packable.regular]
    apply wp_bind
    refine wp_bind (wp_mono (zipEntry_packs filling) ?_)
    rintro out t ⟨rfl, filling⟩
    apply wp_ret.mpr
    refine wp_does_bind trivial (fun _ => does_answers _ _ (by simp)) (fun r w' does => ?_)
    obtain ⟨written, closed, rfl⟩ := does
    refine wp_ret.mpr ⟨_, rfl, ?_⟩
    rw [closed rfl]
    exact (Store.fileAt_of_node (filling.write _).zip).trans
      (congrArg some (Function.update_self _ _ _))
  · exact absurd packable.dir not_dir

/-- A regular file packs to the archive that holds it. -/
theorem packs (packable : Packable s content) :
    Packs lib s (lib.zip.archive [(s.resource_name, content)]) where
  home := packable.home
  content dir t packing := by
    obtain ⟨_, _, archive⟩ := packable.pack_wp.sound _ _ packing
    exact archive
  ends := packable.pack_wp.ends trivial
  succeeds status t packing := by
    obtain ⟨dir, impossible, _⟩ := packable.pack_wp.sound _ _ packing
    cases impossible

end Packable

/-! ### A sender and a receiver to compute with -/

/-- A client that sends the file `/s/a`. -/
def smallSender : Sender where
  is_server := false
  resource_dir := [slash, 115]
  resource_name := [97]
  stat_resource := ⟨.reg, 2⟩
  world := ⟨tree [letter 115] [([letter 115, letter 97], [104, 105])], []⟩

/-- The archive it sends. -/
def smallZip : List UInt8 :=
  pack [([97], [104, 105])]

theorem packable_small : Packable smallSender [104, 105] where
  home := by decide +kernel
  dir := by decide +kernel
  regular := by decide
  resource := by decide +kernel
  apart := by decide +kernel
  room := Or.inr (Option.isSome_iff_exists.mp (by decide +kernel))

/-- A buffer of zeros. -/
def zeros (n : Nat) : List.Vector UInt8 n :=
  pad n []

/-- A server that receives it at `/d/a`, with its checkpoints in `/c`. -/
def smallSite : Site where
  mem := ⟨[], zeros _, zeros _⟩
  resource_name := [97]
  resource_dir := [slash, 100]
  ckpt_path := [slash, 99]
  K := ⟨zeros _, zeros _⟩
  cwd := []
  some_dir := by decide
  some_ckpt := by decide
  relative := by decide
  terminated := rfl
  path_fits := by decide
  path_clean := by decide

/-- Its file system before the first session. -/
def smallStore : Store Name UInt8 :=
  tree [letter 100, letter 99] []

theorem smallSite_avoids : smallSite.Avoids reference (reference.md5.digest smallZip) := by
  intro X es digest read l own entry member
  obtain rfl : X = smallZip := digest_injective_of_short (by decide) digest
  have known : es = [([97], [104, 105])] := by
    have archive := referenceZip.entries_archive [([97], [104, 105])]
    exact Option.some.inj (read.symm.trans archive)
  subst known
  obtain rfl := List.mem_singleton.mp member
  rcases own with rfl | rfl | rfl
  · decide +kernel
  · decide +kernel
  · decide +kernel

theorem smallSite_ready : Ready smallSite (reference.md5.digest smallZip) smallStore where
  cwd := by decide +kernel
  dir := by decide +kernel
  ckptDir := by decide +kernel
  parent := ⟨[letter 100], ⟨[97, 46, 122, 105, 112], by decide⟩, by decide +kernel, by decide +kernel⟩
  data := Or.inl (by decide +kernel)
  ckpt := Or.inl (by decide +kernel)
  tmp := Or.inl (by decide +kernel)
  exdir t := tree_links _ _ _ t
  links l t link := (tree_links _ _ l t link).elim

/-- A side does what it can, `n` times. -/
def turns (side : Side) (n : Nat) : List (Side × Pair.Move Fate) :=
  List.replicate n (side, .act .works)

theorem act_of_turns {side : Side} {n : Nat} {m : Side × Pair.Move Fate}
    (member : m ∈ turns side n) : m.2 = .act .works := by
  rw [List.eq_of_mem_replicate member]

/-- A session of the two as the script has it. -/
def smallRun (script : List (Side × Pair.Move Fate)) (fs : Store Name UInt8) :
    Pair (Sys reference.md5.Ctx) Sys.Resp Schema.Val Int Int World World :=
  Pair.play (machine reference False).onTape (machine reference False).onTape script
    (exchange reference smallSite smallSender fs)

theorem reach_smallRun {lossy : Prop} {script : List (Side × Pair.Move Fate)}
    (fails : ∀ m ∈ script, m.2 = .lose → lossy) (fs : Store Name UInt8) :
    Session.Reach reference lossy (exchange reference smallSite smallSender fs)
      (smallRun script fs) :=
  Pair.reach_play _ _ script fails _

end Filerail
