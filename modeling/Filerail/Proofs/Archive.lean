/-
Module: Filerail.Proofs.Archive
Layer: Proofs
Purpose: The archive of the sending handler, from its creation to its removal. In between the process
  writes nothing but the archive. `Shared` is what it relies on when others use the same file system:
  that from the creation to the removal they change nothing.
Imports: Filerail.Proofs.Offer
Main exports: Claimed, Shared, shared_still, prepare_wp
-/
import Filerail.Proofs.Offer

namespace Filerail

open FileStore ProgramLogic

variable {lib : Lib}

/-- Nothing has been removed by the process. -/
def Unremoved (log : List (SysEvent lib)) : Prop :=
  ∀ path, (⟨.loc (.unlink path), true⟩ : SysEvent lib) ∉ log

/-- An archive has been created and not yet removed. -/
def Claimed (log : List (SysEvent lib)) : Prop :=
  (∃ path zip, (⟨.loc (.zipOpen path), some zip⟩ : SysEvent lib) ∈ log) ∧ Unremoved log

/-- What others may do: they leave the current directory and all directories, and while an archive is
    claimed they change nothing. -/
structure Shared (env : SysEnv lib) : Prop where
  refl : ∀ log w, env log w w
  cwd : ∀ log w w', env log w w' → w'.cwd = w.cwd
  dirs : ∀ log w w' l, env log w w' → w.fs.node l = some .dir → w'.fs.node l = some .dir
  alone : ∀ log w w', Claimed log → env log w w' → w' = w

theorem shared_still : Shared (still : SysEnv lib) where
  refl _ _ := rfl
  cwd _ _ _ same := by rw [(same : _ = _)]
  dirs _ _ _ _ same dir := by rwa [← (same : _ = _)]
  alone _ _ _ _ same := same.symm

theorem Unremoved.cons {log : List (SysEvent lib)} (unremoved : Unremoved log)
    {a : Act (Sys lib.md5.Ctx) Schema.Val} (other : ∀ path, a ≠ .loc (.unlink path))
    (r : a.Answer Sys.Resp) : Unremoved (⟨a, r⟩ :: log) := by
  intro path member
  cases member with
  | head => exact other path rfl
  | tail _ member => exact unremoved path member

theorem Claimed.cons {log : List (SysEvent lib)} (claimed : Claimed log)
    {a : Act (Sys lib.md5.Ctx) Schema.Val} (other : ∀ path, a ≠ .loc (.unlink path))
    (r : a.Answer Sys.Resp) : Claimed (⟨a, r⟩ :: log) := by
  obtain ⟨⟨path, zip, opened⟩, unremoved⟩ := claimed
  exact ⟨⟨path, zip, List.mem_cons_of_mem _ opened⟩, unremoved.cons other r⟩

/-! ### Writing the archive -/

/-- Calls that write to the archive `i`. -/
def Adds (i : Nat) : Sys lib.md5.Ctx → Prop
  | .zipEntryOpen zip _ => zip.ino = i
  | .zipEntryFwrite zip _ => zip.ino = i
  | .zipEntryClose zip => zip.ino = i
  | .zipClose (some zip) => zip.ino = i
  | _ => False

/-- Calls that read, or write to the archive `i`. -/
def Zips (i : Nat) (e : Sys lib.md5.Ctx) : Prop :=
  Reads e ∨ Adds i e

theorem adds_setData {faulty : Prop} {i : Nat} {w w' : World} {e : Sys lib.md5.Ctx} {r : e.Resp}
    (adds : Adds i e) (answer : sysSem lib faulty w e r w') :
    w' = w ∨ ∃ written, w' = { w with fs := w.fs.setData i written } := by
  cases e with
  | zipEntryOpen zip name =>
      obtain rfl : zip.ino = i := adds
      rcases answer with ⟨written, _, same⟩ | ⟨_, _, written, same⟩
      · exact Or.inr ⟨written, same⟩
      · exact Or.inr ⟨written, same⟩
  | zipEntryFwrite zip path =>
      obtain rfl : zip.ino = i := adds
      rcases answer with (⟨_, _, _, written, _, _, _, same⟩ | ⟨_, same, _⟩) | ⟨_, _, written, same⟩
      · exact Or.inr ⟨written, same⟩
      · exact Or.inl same
      · exact Or.inr ⟨written, same⟩
  | zipEntryClose zip =>
      obtain rfl : zip.ino = i := adds
      rcases answer with (⟨_, written, _, _, same⟩ | ⟨_, _, same⟩) | ⟨_, _, written, same⟩
      · exact Or.inr ⟨written, same⟩
      · exact Or.inl same
      · exact Or.inr ⟨written, same⟩
  | zipClose zip =>
      cases zip with
      | none => exact adds.elim
      | some zip =>
          obtain rfl : zip.ino = i := adds
          rcases answer with ⟨written, _, same⟩ | ⟨_, written, same⟩
          · exact Or.inr ⟨written, same⟩
          · exact Or.inr ⟨written, same⟩
  | _ => exact adds.elim

theorem Zips.setData {faulty : Prop} {i : Nat} {w w' : World} {e : Sys lib.md5.Ctx} {r : e.Resp}
    (zips : Zips i e) (answer : sysSem lib faulty w e r w') :
    ∃ written, w' = { w with fs := w.fs.setData i written } := by
  have changes : w' = w ∨ ∃ written, w' = { w with fs := w.fs.setData i written } := by
    rcases zips with reads | adds
    · exact Or.inl (reads_same reads answer)
    · exact adds_setData adds answer
  rcases changes with rfl | written
  · exact ⟨w'.fs.data i, by rw [Store.setData_self]⟩
  · exact written

theorem Zips.keeps {i : Nat} {e : Sys lib.md5.Ctx} (zips : Zips i e) (path : CStr) :
    (Act.loc e : Act (Sys lib.md5.Ctx) Schema.Val) ≠ .loc (.unlink path) := by
  rintro ⟨⟩
  exact zips.elim id id

section Zipping

variable {env : SysEnv lib} {faulty : Prop} {zip : CStr} {l home : Loc} {i : Nat}

/-- The archive is the file `i`, and claimed. -/
structure Zipping (faulty : Prop) (zip : CStr) (l home : Loc) (i : Nat) (t : SysTape lib) : Prop where
  claimed : Claimed t.log
  target : t.world.target zip = l
  node : t.world.fs.node l = some (.file i)
  back : faulty ∨ t.world.fs.node home = some .dir

theorem Zipping.after {t : SysTape lib} (zipping : Zipping faulty zip l home i t)
    (shared : Shared env) {e : Sys lib.md5.Ctx} (zips : Zips i e) {r : e.Resp} {w' : World}
    (answer : Answers env faulty t e r w') :
    Zipping faulty zip l home i (Tape.after t e r w') := by
  obtain ⟨w, changed, answer⟩ := answer
  obtain rfl := shared.alone _ _ _ zipping.claimed changed
  obtain ⟨written, rfl⟩ := zips.setData answer
  refine ⟨zipping.claimed.cons zips.keeps r, ?_, zipping.node, zipping.back⟩
  exact (Store.follow_congr (fun _ _ => Iff.rfl) _ _).trans zipping.target

/-- What the functions that fill the archive leave. -/
def Zipped (faulty : Prop) (zip : CStr) (l home : Loc) (i : Nat) (out : Zip × Bool)
    (t : SysTape lib) : Prop :=
  out.1.ino = i ∧ Zipping faulty zip l home i t

/-- Calls that read, or write to the archive `i`, keep `inv`. -/
def Endures (env : SysEnv lib) (faulty : Prop) (i : Nat) (inv : SysTape lib → Prop) : Prop :=
  ∀ {t : SysTape lib} {e : Sys lib.md5.Ctx} {r : e.Resp} {w' : World}, inv t → Zips i e →
    Answers env faulty t e r w' → inv (Tape.after t e r w')

theorem zipping_endures (shared : Shared env) :
    Endures env faulty i (Zipping faulty zip l home i) :=
  fun zipping zips answer => zipping.after shared zips answer

section Filling

variable {inv : SysTape lib → Prop} (endures : Endures env faulty i inv)

include endures

/-- A call that reads or writes to the archive. -/
theorem wp_zip {α : Type} {t : SysTape lib} (holds : inv t) {e : Sys lib.md5.Ctx} (zips : Zips i e)
    {f : e.Resp → L lib α} {post : α → SysTape lib → Prop}
    {guard : SysTape lib → Option (Sys lib.md5.Ctx) → Prop} (here : guard t (some e))
    (next : ∀ r t', inv t' → (∃ w', Answers env faulty t e r w') →
      Wp (tapeSem env (sysSem lib faulty)) guard False (f r) t' post) :
    Wp (tapeSem env (sysSem lib faulty)) guard False (Prog.bind (sys e) f) t post := by
  apply wp_sys_bind here False.elim
  intro r w' answer
  exact next r _ (endures holds zips answer) ⟨w', answer⟩

theorem zipEntry_wp {t : SysTape lib} (holds : inv t) {z : Zip} (ino : z.ino = i) (path : CStr) :
    Wp (tapeSem env (sysSem lib faulty)) (fun _ e => Unwatched e) False (zipEntry z path) t
      (fun out t' => out.1.ino = i ∧ inv t') := by
  unfold zipEntry
  simp only [Prog.bind_eq, Prog.pure_eq]
  refine wp_zip endures holds (e := .zipEntryOpen z path) (Or.inr ino) trivial
    (fun r t₁ holds answer => ?_)
  cases r with
  | none => exact wp_ret.mpr ⟨ino, holds⟩
  | some z₁ =>
      have ino : z₁.ino = i := by
        rcases answer with ⟨_, _, _, ⟨_, same, _⟩ | ⟨_, same, _⟩⟩
        · rw [Option.some.inj same, ← ino]
        · cases same
      refine wp_zip endures holds (e := .zipEntryFwrite z₁ path) (Or.inr ino) trivial
        (fun r t₂ holds answer => ?_)
      cases r with
      | none => exact wp_ret.mpr ⟨ino, holds⟩
      | some z₂ =>
          have ino : z₂.ino = i := by
            rcases answer with ⟨_, _, _, (⟨_, _, _, _, _, _, same, _⟩ | ⟨same, _, _⟩) | ⟨_, same, _⟩⟩
            · rw [Option.some.inj same, ← ino]
            · cases same
            · cases same
          refine wp_zip endures holds (e := .zipEntryClose z₂) (Or.inr ino) trivial
            (fun r t₃ holds answer => ?_)
          cases r with
          | none => exact wp_ret.mpr ⟨ino, holds⟩
          | some z₃ =>
              have ino : z₃.ino = i := by
                rcases answer with ⟨_, _, _, (⟨_, _, _, same, _⟩ | ⟨_, same, _⟩) | ⟨_, same, _⟩⟩
                · rw [Option.some.inj same, ← ino]
                · cases same
                · cases same
              exact wp_ret.mpr ⟨ino, holds⟩

theorem zipEntries_wp {folder : Zip → CStr → L lib (Zip × Bool)}
    (inner : ∀ {t : SysTape lib} {z : Zip}, inv t → z.ino = i → ∀ path,
      Wp (tapeSem env (sysSem lib faulty)) (fun _ e => Unwatched e) False (folder z path) t
        (fun out t' => out.1.ino = i ∧ inv t'))
    (dir : CStr) (names : List Name) {t : SysTape lib} (holds : inv t) {z : Zip} (ino : z.ino = i) :
    Wp (tapeSem env (sysSem lib faulty)) (fun _ e => Unwatched e) False
      (zipEntries folder dir z names) t (fun out t' => out.1.ino = i ∧ inv t') := by
  induction names generalizing t z with
  | nil => exact wp_ret.mpr ⟨ino, holds⟩
  | cons entry rest ih =>
      unfold zipEntries
      simp only [Prog.bind_eq, Prog.pure_eq]
      refine wp_zip endures holds (e := .lstat _) (Or.inl trivial) trivial
        (fun r t₁ holds _ => ?_)
      cases r with
      | none => exact wp_ret.mpr ⟨ino, holds⟩
      | some st =>
          have onwards : ∀ (out : Zip × Bool) t₂, out.1.ino = i ∧ inv t₂ →
              Wp (tapeSem env (sysSem lib faulty)) (fun _ e => Unwatched e) False
                (if out.2 = true then zipEntries folder dir out.1 rest else .ret (out.1, false)) t₂
                (fun out t' => out.1.ino = i ∧ inv t') := by
            rintro ⟨z₁, ok⟩ t₂ ⟨ino, holds⟩
            cases ok with
            | true => exact ih holds ino
            | false => exact wp_ret.mpr ⟨ino, holds⟩
          dsimp only
          split
          · exact wp_bind (wp_mono (inner holds ino _) onwards)
          · exact wp_bind (wp_mono (zipEntry_wp endures holds ino _) onwards)

theorem zipFolder_wp (depth : Nat) {t : SysTape lib} (holds : inv t) {z : Zip} (ino : z.ino = i)
    (path : CStr) :
    Wp (tapeSem env (sysSem lib faulty)) (fun _ e => Unwatched e) False (zipFolder depth z path) t
      (fun out t' => out.1.ino = i ∧ inv t') := by
  induction depth generalizing t z path with
  | zero =>
      refine wp_perform_bind.mpr ⟨trivial, False.elim, ?_⟩
      rintro dead
      cases dead
  | succ depth ih =>
      unfold zipFolder
      simp only [Prog.bind_eq, Prog.pure_eq]
      refine wp_zip endures holds (e := .opendir path) (Or.inl trivial) trivial
        (fun r t₁ holds _ => ?_)
      cases r with
      | none => exact wp_ret.mpr ⟨ino, holds⟩
      | some names =>
          exact zipEntries_wp endures (fun holds ino path => ih holds ino path) path names holds ino

/-- The part of `zipResource` behind the opening of the archive. -/
theorem zipOpened_wp {t : SysTape lib} {z : Zip} (holds : inv t) (ino : z.ino = i)
    (resource_name : CStr) (st : Stat) :
    Wp (tapeSem env (sysSem lib faulty)) (fun _ e => Unwatched e) False
      (if st.st_mode = .dir then
        Prog.bind (zipFolder MAX_PATH_LENGTH z resource_name) (fun out => .ret (some out.1, out.2))
      else Prog.bind (zipFile z resource_name) (fun out => .ret (some out.1, out.2))) t
      (fun (out : Option Zip × Bool) t' => ∃ z', out.1 = some z' ∧ z'.ino = i ∧ inv t') := by
  have onwards : ∀ (out : Zip × Bool) t₂, out.1.ino = i ∧ inv t₂ →
      Wp (tapeSem env (sysSem lib faulty)) (fun _ e => Unwatched e) False
        (.ret (some out.1, out.2)) t₂
        (fun (out : Option Zip × Bool) t' => ∃ z', out.1 = some z' ∧ z'.ino = i ∧ inv t') := by
    rintro ⟨z₁, ok⟩ t₂ ⟨ino, holds⟩
    exact wp_ret.mpr ⟨z₁, rfl, ino, holds⟩
  split
  · exact wp_bind (wp_mono (zipFolder_wp endures _ holds ino _) onwards)
  · exact wp_bind (wp_mono (zipEntry_wp endures holds ino _) onwards)

end Filling

/-- What `zipResource` leaves: an archive, or nothing and a failure. -/
def ZippedResource (faulty : Prop) (zip : CStr) (home : Loc) (out : Option Zip × Bool)
    (t : SysTape lib) : Prop :=
  (out = (none, false)) ∨ ∃ z l, out.1 = some z ∧ Zipping faulty zip l home z.ino t

/-- The archive is created, or an old one of that name emptied. -/
theorem zipOpen_zipping (shared : Shared env) {t : SysTape lib} (unremoved : Unremoved t.log)
    (back : faulty ∨ t.world.fs.node home = some .dir) {z : Zip} {w' : World}
    (answer : Answers env faulty t (.zipOpen zip) (some z) w') :
    ∃ l, Zipping faulty zip l home z.ino (Tape.after t (.zipOpen zip) (some z) w') := by
  obtain ⟨w, changed, answer⟩ := answer
  have back : faulty ∨ w.fs.node home = some .dir := back.imp id (shared.dirs _ _ _ _ changed)
  have claimed : Claimed (⟨.loc (.zipOpen zip), some z⟩ :: t.log : List (SysEvent lib)) :=
    ⟨⟨zip, z, List.mem_cons_self⟩, unremoved.cons (by simp) _⟩
  rcases answer with (⟨i, file, same, rfl⟩ | ⟨i, fs', made, same, rfl⟩ | ⟨no, _⟩) | ⟨_, no, _⟩
  · cases same
    refine ⟨w.target zip, claimed, ?_, file, back⟩
    exact Store.follow_congr (fun _ _ => Iff.rfl) _ _
  · cases same
    refine ⟨w.target zip, claimed, ?_, (Store.create_spec made).1,
      back.imp id (Store.create_keeps made)⟩
    exact Store.follow_create made _ _
  · cases no
  · cases no

theorem zipResource_wp (shared : Shared env) {t : SysTape lib} (unremoved : Unremoved t.log)
    (back : faulty ∨ t.world.fs.node home = some .dir) (resource_name : CStr) (st : Stat) :
    Wp (tapeSem env (sysSem lib faulty)) (fun _ e => Unwatched e) False
      (zipResource zip resource_name st) t (ZippedResource faulty zip home) := by
  unfold zipResource
  simp only [Prog.bind_eq, Prog.pure_eq]
  refine wp_alive shared.refl (by simp) trivial (fun r w' answer => ?_)
  cases r with
  | none => exact wp_ret.mpr (Or.inl rfl)
  | some z =>
      obtain ⟨l, zipping⟩ := zipOpen_zipping shared unremoved back answer
      dsimp only
      apply wp_mono (zipOpened_wp (zipping_endures shared) zipping rfl resource_name st)
      rintro ⟨_, ok⟩ t₂ ⟨z₁, rfl, ino, zipping⟩
      exact Or.inr ⟨z₁, l, rfl, ino ▸ zipping⟩

/-- Closing the archive fixes its content, until it is removed. -/
theorem archived_of_closed (shared : Shared env) {t : SysTape lib} {z : Zip}
    (zipping : Zipping faulty zip l home z.ino t) :
    ∃ F, Archived env faulty zip F t (render home) := by
  refine ⟨t.world.fs.data z.ino, Claimed, (· = t.world), l, z.ino, home, ⟨⟨shared.refl, ?_, ?_⟩, ?_, ?_⟩,
    zipping.claimed, rfl, rfl⟩
  · rintro log w w' claimed rfl changed
    exact shared.alone _ _ _ claimed changed
  · intro log a r claimed calm
    refine claimed.cons (fun path same => ?_) r
    rw [same] at calm
    exact calm
  · rintro w rfl
    exact ⟨zipping.target, zipping.node, rfl⟩
  · refine zipping.back.imp id (fun dir => ⟨?_, fun log w w' changed => shared.dirs _ _ _ _ changed⟩)
    rintro w rfl
    exact dir

end Zipping

/-- In front of the first frame the sender only reads, and fills the archive. -/
theorem prepare_wp {env : SysEnv lib} {faulty : Prop} (shared : Shared env) {t : SysTape lib}
    (unremoved : Unremoved t.log)
    (back : faulty ∨ t.world.fs.node t.world.cwd = some .dir) (resource_dir resource_name : CStr)
    (st : Stat) :
    Wp (tapeSem env (sysSem lib faulty)) (fun _ e => Unwatched e) False
      (prepare resource_dir resource_name st) t
      (Prepared env faulty (resource_name ++ dotZip) (fun _ => True) (fun _ _ => True)) := by
  unfold prepare
  simp only [Prog.bind_eq, Prog.pure_eq]
  refine wp_alive shared.refl (by simp) trivial (fun r w' answer => ?_)
  obtain ⟨w, changed, answer⟩ := answer
  obtain rfl := reads_same (e := .getcwd) trivial answer
  have back : faulty ∨ w'.fs.node t.world.cwd = some .dir :=
    back.imp id (shared.dirs _ _ _ _ changed)
  have unremoved := unremoved.cons (a := .loc .getcwd) (by simp) r
  cases r with
  | none =>
      refine wp_alive shared.refl (by simp) trivial (fun r w' answer => ?_)
      exact wp_ret.mpr trivial
  | some current_dir =>
      have home : current_dir = render t.world.cwd := by
        rcases answer with ⟨same, _⟩ | ⟨_, no, _⟩
        · rw [← shared.cwd _ _ _ changed]
          exact Option.some.inj same
        · cases no
      subst home
      dsimp only
      refine wp_alive shared.refl (by simp) trivial (fun r w₁ answer => ?_)
      obtain ⟨w₂, changed, answer⟩ := answer
      have back : faulty ∨ w₁.fs.node t.world.cwd = some .dir := by
        have same : w₁.fs = w₂.fs := by
          rcases answer with (⟨_, _, rfl⟩ | ⟨_, _, rfl⟩) | ⟨_, _, rfl⟩
          · rfl
          · rfl
          · rfl
        rw [same]
        exact back.imp id (shared.dirs _ _ _ _ changed)
      have unremoved := unremoved.cons (a := .loc (.chdir resource_dir)) (by simp) r
      cases r with
      | false =>
          refine wp_alive shared.refl (by simp) trivial (fun r w' answer => ?_)
          exact wp_ret.mpr trivial
      | true =>
          apply wp_bind
          refine wp_mono (zipResource_wp shared unremoved back _ _) ?_
          rintro ⟨zip, ok⟩ t₃ (same | ⟨z, l, rfl, zipping⟩)
          · cases same
            refine wp_alive (e := .zipClose none) shared.refl (by simp) trivial
              (fun r w' answer => ?_)
            exact wp_ret.mpr trivial
          · cases ok with
            | true =>
                refine wp_zip (zipping_endures shared) zipping (e := .zipClose (some z)) (Or.inr rfl) trivial
                  (fun r t₄ zipping _ => ?_)
                obtain ⟨F, archived⟩ := archived_of_closed shared zipping
                exact wp_ret.mpr ⟨F, trivial, archived⟩
            | false =>
                refine wp_alive (e := .zipClose (some z)) shared.refl (by simp) trivial
                  (fun r w' answer => ?_)
                exact wp_ret.mpr trivial

end Filerail
