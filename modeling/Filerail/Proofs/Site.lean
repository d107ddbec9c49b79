/-
Module: Filerail.Proofs.Site
Layer: Proofs
Purpose: The files a receiver works on. A `Site` is the arguments of the receiving handler as its
  callers compose them; its locations are the partial file, the checkpoint of a hash and the temporary
  checkpoint. `View` is what a session knows of the file system: the contents of the partial file and
  of the checkpoint, and that nothing else has changed. Each file operation of a session has one
  lemma that says how it changes the view.
Imports: Filerail.Proofs.Transfer
Main exports: Site, Site.data, Site.ckpt, Site.tmp, Site.Avoids, Ready, View, View.writeData,
  View.createData, View.rename, View.unlinkData, View.unlinkCkpt, View.unpack
-/
import Filerail.Proofs.Transfer

namespace Filerail

open FileStore ProgramLogic

/-! ### Locations -/

/-- The arguments of `filerail_recvfile_handler`, as the client and the server compose them, in a
    process whose current directory is `cwd`. The byte after `hex_str` is taken to end the string. -/
structure Site where
  mem : Memory
  resource_name : CStr
  resource_dir : CStr
  ckpt_path : CStr
  K : AESKeys
  cwd : Loc
  some_dir : resource_dir ≠ []
  some_ckpt : ckpt_path ≠ []
  relative : (resource_name ++ dotZip).head? ≠ some slash
  terminated : mem.afterHex = []
  path_fits : (resource_dir ++ slash :: (resource_name ++ dotZip)).length < MAX_PATH_LENGTH
  path_clean : (0 : UInt8) ∉ resource_dir ++ slash :: (resource_name ++ dotZip)

/-- The entry name of the checkpoint of a hash. -/
def ckptName (h : Hash) : Name :=
  ⟨hashToStr h, by
    have len := length_hashToStr h
    refine ⟨?_, not_mem_hashToStr (by decide) h, ?_, ?_⟩
    · intro same
      rw [same] at len
      cases len
    · intro same
      rw [same] at len
      cases len
    · intro same
      rw [same] at len
      cases len⟩

/-- The entry name of the temporary checkpoint of a hash. -/
def tmpName (h : Hash) : Name :=
  ⟨hashToStr h ++ dotTmp, by
    have len : (hashToStr h ++ dotTmp).length = 36 := by
      rw [List.length_append, length_hashToStr]
      rfl
    refine ⟨?_, ?_, ?_, ?_⟩
    · intro same
      rw [same] at len
      cases len
    · rw [List.mem_append, not_or]
      exact ⟨not_mem_hashToStr (by decide) h, by decide⟩
    · intro same
      rw [same] at len
      cases len
    · intro same
      rw [same] at len
      cases len⟩

namespace Site

variable (site : Site)

/-- The resource path as the callers build it: directory, name and `".zip"`. -/
def resource_path : CStr :=
  site.resource_dir ++ slash :: (site.resource_name ++ dotZip)

/-- The directory the resource goes to. -/
def dir : Loc := resolve site.cwd site.resource_dir

/-- The partial file. -/
def data : Loc := resolve site.cwd site.resource_path

/-- The directory the archive is extracted into: the code names it again from inside it. -/
def exdir : Loc := resolve site.dir site.resource_dir

/-- The checkpoint directory. -/
def ckptDir : Loc := resolve site.cwd site.ckpt_path

/-- The checkpoint of a hash. -/
def ckpt (h : Hash) : Loc := site.ckptDir ++ [ckptName h]

/-- The temporary checkpoint of a hash. -/
def tmp (h : Hash) : Loc := site.ckptDir ++ [tmpName h]

/-- The path of the checkpoint of a hash, as the handler builds it. -/
def ckpt_resource_path (h : Hash) : CStr := checkpointPath site.mem site.ckpt_path h

/-- The file the handler hashes by name in the resource directory is the one it received by path. -/
theorem resolve_zip : resolve site.dir (site.resource_name ++ dotZip) = site.data := by
  rw [resolve_relative _ site.relative, data, resource_path, resolve_join _ site.some_dir, dir]

theorem resolve_ckpt (h : Hash) : resolve site.cwd (site.ckpt_resource_path h) = site.ckpt h := by
  have ok : NameOk (hashToStr h) := (ckptName h).2
  rw [ckpt_resource_path, checkpointPath, site.terminated, List.append_nil,
    resolve_join _ site.some_ckpt, walk_plain ok.2.1, List.nil_append, enter_ok ok]
  rfl

theorem resolve_tmp (h : Hash) :
    resolve site.cwd (site.ckpt_resource_path h ++ dotTmp) = site.tmp h := by
  have ok : NameOk (hashToStr h ++ dotTmp) := (tmpName h).2
  rw [ckpt_resource_path, checkpointPath, site.terminated, List.append_nil, List.append_assoc,
    List.cons_append, resolve_join _ site.some_ckpt, walk_plain ok.2.1, List.nil_append,
    enter_ok ok]
  rfl

/-- The partial file has a name that ends in `".zip"`. -/
theorem data_suffix : ∃ parent name, site.data = parent ++ [name] ∧ dotZip <:+ name.1 := by
  rw [← site.resolve_zip, resolve_relative _ site.relative]
  exact walk_suffix (by decide) (by decide) _ _ _ (by simp)

theorem data_ne_ckpt (h : Hash) : site.data ≠ site.ckpt h := by
  obtain ⟨parent, name, eq, suffix⟩ := site.data_suffix
  intro same
  rw [eq, ckpt] at same
  have last := (List.append_inj' same rfl).2
  rw [List.singleton_inj] at last
  rw [last] at suffix
  exact not_mem_hashToStr (c := 122) (by decide) h (suffix.subset (by decide))

theorem data_ne_tmp (h : Hash) : site.data ≠ site.tmp h := by
  obtain ⟨parent, name, eq, suffix⟩ := site.data_suffix
  intro same
  rw [eq, tmp] at same
  have last := (List.append_inj' same rfl).2
  rw [List.singleton_inj] at last
  rw [last] at suffix
  have other : dotTmp <:+ (tmpName h).1 := List.suffix_append _ _
  have clash := List.suffix_of_suffix_length_le suffix other (by decide)
  exact absurd (clash.eq_of_length rfl) (by decide)

theorem ckpt_ne_tmp (h h' : Hash) : site.ckpt h ≠ site.tmp h' := by
  intro same
  have last := (List.append_inj' same rfl).2
  rw [List.singleton_inj] at last
  have len := congrArg (fun name : Name => name.1.length) last
  simp [ckptName, tmpName, dotTmp] at len

end Site

/-! ### What a session relies on -/

/-- The three files of a session. -/
def Site.Own (site : Site) (h : Hash) (l : Loc) : Prop :=
  l = site.data ∨ l = site.ckpt h ∨ l = site.tmp h

/-- Where the files of an archive with the hash can land. -/
def Site.Lands (lib : Lib) (site : Site) (h : Hash) (fs : Store Name UInt8) (l : Loc) : Prop :=
  ∃ X es, lib.md5.digest X = h ∧ lib.zip.entries X = some es ∧
    fs.Lands (placements site.exdir es) l

/-- No archive with the hash holds a file of the session itself, or one below it. -/
def Site.Avoids (lib : Lib) (site : Site) (h : Hash) : Prop :=
  ∀ X es, lib.md5.digest X = h → lib.zip.entries X = some es →
    ∀ l, site.Own h l → ∀ entry ∈ es, ¬ l <+: walk site.exdir [] entry.1

/-- The directories are there, the session's files are regular files or absent, and no symbolic link
    leads to them. -/
structure Ready (site : Site) (h : Hash) (fs : Store Name UInt8) : Prop where
  cwd : fs.node site.cwd = some .dir
  dir : fs.node site.dir = some .dir
  ckptDir : fs.node site.ckptDir = some .dir
  parent : ∃ p n, site.data = p ++ [n] ∧ fs.node p = some .dir
  data : fs.Plain site.data
  ckpt : fs.Plain (site.ckpt h)
  tmp : fs.Plain (site.tmp h)
  exdir : ∀ t, fs.node site.exdir ≠ some (.link t)
  links : ∀ l t, fs.node l = some (.link t) → ¬ site.Own h t

/-- Each of the three files is a regular file or absent. -/
def PlainOwn (site : Site) (h : Hash) (fs : Store Name UInt8) : Prop :=
  ∀ l, site.Own h l → fs.Plain l

theorem PlainOwn.not_link {site : Site} {h : Hash} {fs : Store Name UInt8}
    (plain : PlainOwn site h fs) {l t : Loc} (own : site.Own h l)
    (link : fs.node l = some (.link t)) : False := by
  rcases plain l own with absent | ⟨i, file⟩
  · rw [absent] at link
    cases link
  · rw [file] at link
    cases link

/-- A change that touches the files of the session only. -/
def Touches (site : Site) (h : Hash) (fs fs' : Store Name UInt8) : Prop :=
  ∀ l, ¬ site.Own h l → fs'.node l = fs.node l ∧ fs'.fileAt l = fs.fileAt l

namespace Ready

variable {site : Site} {h : Hash} {fs fs' : Store Name UInt8}

theorem plain_of_own (ready : Ready site h fs) : PlainOwn site h fs := by
  intro l own
  rcases own with rfl | rfl | rfl
  · exact ready.data
  · exact ready.ckpt
  · exact ready.tmp

theorem not_own_of_dir (ready : Ready site h fs) {l : Loc} (dir : fs.node l = some .dir) :
    ¬ site.Own h l := by
  intro own
  rcases ready.plain_of_own _ own with absent | ⟨i, file⟩
  · rw [absent] at dir
    cases dir
  · rw [file] at dir
    cases dir

theorem touched (ready : Ready site h fs) (touches : Touches site h fs fs')
    (plain : PlainOwn site h fs') : Ready site h fs' where
  cwd := (touches _ (ready.not_own_of_dir ready.cwd)).1.trans ready.cwd
  dir := (touches _ (ready.not_own_of_dir ready.dir)).1.trans ready.dir
  ckptDir := (touches _ (ready.not_own_of_dir ready.ckptDir)).1.trans ready.ckptDir
  parent := by
    obtain ⟨p, n, eq, dir⟩ := ready.parent
    exact ⟨p, n, eq, (touches _ (ready.not_own_of_dir dir)).1.trans dir⟩
  data := plain _ (Or.inl rfl)
  ckpt := plain _ (Or.inr (Or.inl rfl))
  tmp := plain _ (Or.inr (Or.inr rfl))
  exdir t link := by
    by_cases own : site.Own h site.exdir
    · exact plain.not_link own link
    · rw [(touches _ own).1] at link
      exact ready.exdir t link
  links l t link := by
    by_cases own : site.Own h l
    · exact (plain.not_link own link).elim
    · rw [(touches l own).1] at link
      exact ready.links l t link

/-- A path that names one of the files leads to it. -/
theorem target_own (ready : Ready site h fs) {l : Loc} (own : site.Own h l) (fuel : Nat) :
    fs.follow fuel l = l :=
  (ready.plain_of_own _ own).follow fuel

/-- An archive that avoids the files of the session neither lands on them nor makes directories of
    them. -/
theorem clear (ready : Ready site h fs) {lib : Lib} (avoids : site.Avoids lib h) {X : List UInt8}
    {es : Entries} (digest : lib.md5.digest X = h) (read : lib.zip.entries X = some es) {l : Loc}
    (own : site.Own h l) :
    ¬ fs.Lands (placements site.exdir es) l ∧ ¬ Store.Passes (placements site.exdir es) l := by
  constructor
  · rintro ⟨entry, member, lands⟩
    obtain ⟨e, listed, rfl⟩ := List.mem_map.mp member
    rcases fs.follow_eq_or_link Store.maxLinks (walk site.exdir [] e.1) with stays | ⟨l', link⟩
    · rw [stays] at lands
      exact avoids X es digest read l own e listed (lands ▸ List.prefix_rfl)
    · rw [lands] at link
      exact ready.links l' l link own
  · rintro ⟨entry, member, way⟩
    obtain ⟨e, listed, rfl⟩ := List.mem_map.mp member
    exact avoids X es digest read l own e listed (way.trans (List.dropLast_prefix _))

end Ready

/-! Where the paths of a session lead, in a process in the directory of the site. -/

section Paths

variable {site : Site} {h : Hash} {w : World} (cwd : w.cwd = site.cwd)

include cwd

theorem Site.loc_data : w.loc site.resource_path = site.data := by
  rw [World.loc, cwd, Site.data]

theorem Site.loc_ckpt : w.loc (site.ckpt_resource_path h) = site.ckpt h := by
  rw [World.loc, cwd, site.resolve_ckpt]

theorem Site.loc_tmp : w.loc (site.ckpt_resource_path h ++ dotTmp) = site.tmp h := by
  rw [World.loc, cwd, site.resolve_tmp]

variable (ready : Ready site h w.fs)

include ready

theorem Ready.target_data : w.target site.resource_path = site.data := by
  rw [World.target, Site.loc_data cwd]
  exact ready.target_own (Or.inl rfl) _

theorem Ready.target_ckpt : w.target (site.ckpt_resource_path h) = site.ckpt h := by
  rw [World.target, Site.loc_ckpt cwd]
  exact ready.target_own (Or.inr (Or.inl rfl)) _

theorem Ready.target_tmp : w.target (site.ckpt_resource_path h ++ dotTmp) = site.tmp h := by
  rw [World.target, Site.loc_tmp cwd]
  exact ready.target_own (Or.inr (Or.inr rfl)) _

end Paths

/-- In the resource directory the name of the archive leads to the received file. -/
theorem Ready.target_zip {site : Site} {h : Hash} {w : World} (ready : Ready site h w.fs)
    (cwd : w.cwd = site.dir) : w.target (site.resource_name ++ dotZip) = site.data := by
  rw [World.target, World.loc, cwd, site.resolve_zip]
  exact ready.target_own (Or.inl rfl) _

/-- What a session that started from `fs₀` knows: what the partial file and the checkpoint hold, and
    that other files are unchanged unless they are among `lands`. -/
structure View (site : Site) (h : Hash) (lands : Loc → Prop) (fs₀ fs : Store Name UInt8)
    (d c : Option (List UInt8)) : Prop where
  ready : Ready site h fs
  data : fs.fileAt site.data = d
  ckpt : fs.fileAt (site.ckpt h) = c
  elsewhere : ∀ l, ¬ site.Own h l → ¬ lands l → fs.fileAt l = fs₀.fileAt l
  links : ∀ l t, fs.node l = some (.link t) ↔ fs₀.node l = some (.link t)

namespace View

variable {site : Site} {h : Hash} {lands : Loc → Prop} {fs₀ fs fs' : Store Name UInt8}
  {d c : Option (List UInt8)}

theorem start (ready : Ready site h fs) :
    View site h lands fs fs (fs.fileAt site.data) (fs.fileAt (site.ckpt h)) where
  ready := ready
  data := rfl
  ckpt := rfl
  elsewhere _ _ _ := rfl
  links _ _ := Iff.rfl

/-- A change of the session's files leads to the view of what they hold now. -/
theorem step (view : View site h lands fs₀ fs d c) (touches : Touches site h fs fs')
    (plain : PlainOwn site h fs') :
    View site h lands fs₀ fs' (fs'.fileAt site.data) (fs'.fileAt (site.ckpt h)) where
  ready := view.ready.touched touches plain
  data := rfl
  ckpt := rfl
  elsewhere l away off := ((touches l away).2).trans (view.elsewhere l away off)
  links l t := by
    by_cases own : site.Own h l
    · constructor
      · intro link
        exact (plain.not_link own link).elim
      · intro link
        exact (view.ready.plain_of_own.not_link own ((view.links l t).mpr link)).elim
    · rw [(touches l own).1]
      exact view.links l t

/-- Writing to one of the session's files. -/
theorem setData (view : View site h lands fs₀ fs d c) {l : Loc} (own : site.Own h l) {i : Nat}
    (file : fs.node l = some (.file i)) (bs : List UInt8) :
    View site h lands fs₀ (fs.setData i bs) (if l = site.data then some bs else d)
      (if l = site.ckpt h then some bs else c) := by
  have others : ∀ l', l' ≠ l → (fs.setData i bs).fileAt l' = fs.fileAt l' :=
    fun l' ne => Store.fileAt_setData_ne file ne bs
  have view' : View site h lands fs₀ (fs.setData i bs) _ _ := view.step
    (fun l' away => ⟨rfl, others l' (fun same => away (same ▸ own))⟩)
    (fun l' own' => view.ready.plain_of_own l' own')
  refine ⟨view'.ready, ?_, ?_, view'.elsewhere, view'.links⟩
  · split
    · rename_i same
      rw [← same]
      exact Store.fileAt_setData file bs
    · rename_i ne
      rw [others _ (Ne.symm ne), view.data]
  · split
    · rename_i same
      rw [← same]
      exact Store.fileAt_setData file bs
    · rename_i ne
      rw [others _ (Ne.symm ne), view.ckpt]

/-- Creating one of the session's files. -/
theorem create (view : View site h lands fs₀ fs d c) {l : Loc} (own : site.Own h l) {i : Nat}
    (made : fs.create l = some (i, fs')) :
    fs'.node l = some (.file i) ∧ View site h lands fs₀ fs' (if l = site.data then some [] else d)
      (if l = site.ckpt h then some [] else c) := by
  obtain ⟨here, content, others⟩ := Store.create_spec made
  have view' : View site h lands fs₀ fs' _ _ := view.step
    (fun l' away => others l' (fun same => away (same ▸ own)))
    (fun l' own' => by
      by_cases same : l' = l
      · exact Or.inr ⟨i, same ▸ here⟩
      · rcases view.ready.plain_of_own l' own' with absent | ⟨j, file⟩
        · exact Or.inl ((others l' same).1.trans absent)
        · exact Or.inr ⟨j, (others l' same).1.trans file⟩)
  refine ⟨here, view'.ready, ?_, ?_, view'.elsewhere, view'.links⟩
  · split
    · rename_i same
      rw [← same, content]
    · rename_i ne
      rw [(others _ (Ne.symm ne)).2, view.data]
  · split
    · rename_i same
      rw [← same, content]
    · rename_i ne
      rw [(others _ (Ne.symm ne)).2, view.ckpt]

/-- Removing one of the session's files. -/
theorem unlink (view : View site h lands fs₀ fs d c) {l : Loc} (own : site.Own h l)
    (gone : fs.unlink l = some fs') :
    View site h lands fs₀ fs' (if l = site.data then none else d)
      (if l = site.ckpt h then none else c) := by
  obtain ⟨here, others⟩ := Store.unlink_spec gone
  have view' : View site h lands fs₀ fs' _ _ := view.step
    (fun l' away => others l' (fun same => away (same ▸ own)))
    (fun l' own' => by
      by_cases same : l' = l
      · exact Or.inl (same ▸ here)
      · rcases view.ready.plain_of_own l' own' with absent | ⟨j, file⟩
        · exact Or.inl ((others l' same).1.trans absent)
        · exact Or.inr ⟨j, (others l' same).1.trans file⟩)
  refine ⟨view'.ready, ?_, ?_, view'.elsewhere, view'.links⟩
  · split
    · rename_i same
      rw [← same]
      exact Store.fileAt_of_absent here
    · rename_i ne
      rw [(others _ (Ne.symm ne)).2, view.data]
  · split
    · rename_i same
      rw [← same]
      exact Store.fileAt_of_absent here
    · rename_i ne
      rw [(others _ (Ne.symm ne)).2, view.ckpt]

/-- Publishing a checkpoint: the temporary file becomes the checkpoint. -/
theorem rename (view : View site h lands fs₀ fs d c)
    (moved : fs.rename (site.tmp h) (site.ckpt h) = some fs') :
    View site h lands fs₀ fs' d (fs.fileAt (site.tmp h)) := by
  have ne := (site.ckpt_ne_tmp h h).symm
  obtain ⟨gone, node, content, others⟩ := Store.rename_spec ne moved
  have view' : View site h lands fs₀ fs' _ _ := view.step
    (fun l' away => others l' (fun same => away (Or.inr (Or.inr same)))
      (fun same => away (Or.inr (Or.inl same))))
    (fun l' own' => by
      rcases own' with rfl | rfl | rfl
      · have same := (others _ (site.data_ne_tmp h) (site.data_ne_ckpt h)).1
        rcases view.ready.data with absent | ⟨j, file⟩
        · exact Or.inl (same.trans absent)
        · exact Or.inr ⟨j, same.trans file⟩
      · rcases view.ready.tmp with absent | ⟨j, file⟩
        · exact Or.inl (node.trans absent)
        · exact Or.inr ⟨j, node.trans file⟩
      · exact Or.inl gone)
  refine ⟨view'.ready, ?_, content, view'.elsewhere, view'.links⟩
  rw [(others _ (site.data_ne_tmp h) (site.data_ne_ckpt h)).2, view.data]

/-! The same for each file by name. -/

theorem writeData (view : View site h lands fs₀ fs d c) {i : Nat}
    (file : fs.node site.data = some (.file i)) (bs : List UInt8) :
    View site h lands fs₀ (fs.setData i bs) (some bs) c := by
  have view' := view.setData (Or.inl rfl) file bs
  rwa [if_pos rfl, if_neg (site.data_ne_ckpt h)] at view'

theorem writeTmp (view : View site h lands fs₀ fs d c) {i : Nat}
    (file : fs.node (site.tmp h) = some (.file i)) (bs : List UInt8) :
    View site h lands fs₀ (fs.setData i bs) d c := by
  have view' := view.setData (Or.inr (Or.inr rfl)) file bs
  rwa [if_neg (site.data_ne_tmp h).symm, if_neg (site.ckpt_ne_tmp h h).symm] at view'

theorem createData (view : View site h lands fs₀ fs d c) {i : Nat}
    (made : fs.create site.data = some (i, fs')) :
    fs'.node site.data = some (.file i) ∧ View site h lands fs₀ fs' (some []) c := by
  have view' := view.create (Or.inl rfl) made
  rwa [if_pos rfl, if_neg (site.data_ne_ckpt h)] at view'

theorem createTmp (view : View site h lands fs₀ fs d c) {i : Nat}
    (made : fs.create (site.tmp h) = some (i, fs')) :
    fs'.node (site.tmp h) = some (.file i) ∧ View site h lands fs₀ fs' d c := by
  have view' := view.create (Or.inr (Or.inr rfl)) made
  rwa [if_neg (site.data_ne_tmp h).symm, if_neg (site.ckpt_ne_tmp h h).symm] at view'

theorem unlinkData (view : View site h lands fs₀ fs d c) (gone : fs.unlink site.data = some fs') :
    View site h lands fs₀ fs' none c := by
  have view' := view.unlink (Or.inl rfl) gone
  rwa [if_pos rfl, if_neg (site.data_ne_ckpt h)] at view'

theorem unlinkCkpt (view : View site h lands fs₀ fs d c)
    (gone : fs.unlink (site.ckpt h) = some fs') : View site h lands fs₀ fs' d none := by
  have view' := view.unlink (Or.inr (Or.inl rfl)) gone
  rwa [if_neg (site.data_ne_ckpt h).symm, if_pos rfl] at view'

/-- Unpacking an archive that avoids the session's files. -/
theorem unpack {lib : Lib} (view : View site h (site.Lands lib h fs₀) fs₀ fs d c)
    (avoids : site.Avoids lib h) {X : List UInt8} {es : Entries} (digest : lib.md5.digest X = h)
    (read : lib.zip.entries X = some es) (unpacks : fs.Unpacks fs' (placements site.exdir es)) :
    View site h (site.Lands lib h fs₀) fs₀ fs' d c where
  ready :=
    { cwd := unpacks.keeps _ _ view.ready.cwd
      dir := unpacks.keeps _ _ view.ready.dir
      ckptDir := unpacks.keeps _ _ view.ready.ckptDir
      parent := by
        obtain ⟨p, n, eq, dir⟩ := view.ready.parent
        exact ⟨p, n, eq, unpacks.keeps _ _ dir⟩
      data := unpacks.plain view.ready.data (view.ready.clear avoids digest read (Or.inl rfl)).2
      ckpt := unpacks.plain view.ready.ckpt
        (view.ready.clear avoids digest read (Or.inr (Or.inl rfl))).2
      tmp := unpacks.plain view.ready.tmp
        (view.ready.clear avoids digest read (Or.inr (Or.inr rfl))).2
      exdir := fun t link => view.ready.exdir t ((unpacks.link_iff _ t).mp link)
      links := fun l t link => view.ready.links l t ((unpacks.link_iff l t).mp link) }
  data := (unpacks.fileAt_eq (view.ready.clear avoids digest read (Or.inl rfl)).1).trans view.data
  ckpt :=
    (unpacks.fileAt_eq (view.ready.clear avoids digest read (Or.inr (Or.inl rfl))).1).trans view.ckpt
  elsewhere l away not_landed := by
    have off : ¬ fs.Lands (placements site.exdir es) l := by
      rintro ⟨entry, member, lands⟩
      rw [Store.follow_congr view.links] at lands
      exact not_landed ⟨X, es, digest, read, entry, member, lands⟩
    exact (unpacks.fileAt_eq off).trans (view.elsewhere l away not_landed)
  links l t := (unpacks.link_iff l t).trans (view.links l t)

end View

end Filerail
