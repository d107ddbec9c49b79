/-
Module: Filerail.Proofs.Resume
Layer: Proofs
Purpose: Sessions that transfer one file to one place, one after the other, each of them cut anywhere.
  `Sane` is what every one of them leaves: a prefix of the file, and a checkpoint whose offset lies
  inside it.
Imports: Filerail.Proofs.Packing
Main exports: Sane, Session, sane_sessions, crash_safe_resume
-/
import Filerail.Proofs.Packing

namespace Filerail

open FileStore ProgramLogic

variable {lib : Lib}

/-- What the sessions for `F` leave at the site. -/
structure Sane (lib : Lib) (site : Site) (F : List UInt8) (fs : Store Name UInt8) : Prop where
  ready : Ready site (lib.md5.digest F) fs
  data : ∀ B, fs.fileAt site.data = some B → B <+: F
  ckpt : ∀ img, fs.fileAt (site.ckpt (lib.md5.digest F)) = some img →
    ∃ k, site.Record k img ∧ k.toNat ≤ F.length

/-- A session for `F` in some process, and what it leaves when it is cut. -/
def Session (lib : Lib) (site : Site) (F : List UInt8) (fs fs' : Store Name UInt8) : Prop :=
  ∃ s mem terminated, Yields lib s F ∧
    ∃ c, Session.Reach lib True (exchange lib (site.on mem terminated) s fs) c ∧
      c.rightTape.world.fs = fs'

/-- The offset of a record is read back from its image. -/
theorem Site.Record.offset {site : Site} {k : UInt64} {img : List UInt8} (record : site.Record k img) :
    (Checkpoint.ofImage (img.take sizeofCheckpoint)).offset = k := by
  obtain ⟨ckpt, padding, rfl, rfl, _⟩ := record
  rw [List.take_of_length_le (Checkpoint.length_image ckpt padding).le, Checkpoint.ofImage_image]

section Sessions

variable {site : Site} {F : List UInt8} {fs : Store Name UInt8}

/-- The files of a site do not depend on the memory of the process. -/
theorem Sane.on (sane : Sane lib site F fs) (mem : Memory) (terminated : mem.afterHex = []) :
    Sane lib (site.on mem terminated) F fs where
  ready := sane.ready.on mem terminated
  data := sane.data
  ckpt := sane.ckpt

theorem Sane.bounded (small : F.length < 2 ^ 31) : F.length < 2 ^ 64 := by
  omega

/-- The delivery that a session is, when the files it finds are sane. -/
def Sane.delivery (sane : Sane lib site F fs) (small : F.length < 2 ^ 31)
    (avoids : site.Avoids lib (lib.md5.digest F)) : Delivery lib where
  site := site
  F := F
  found := fs
  offsets k := k.toNat ≤ F.length
  ready := sane.ready
  avoids := avoids
  small := Sane.bounded small
  accepts := by
    intro k B usable
    obtain ⟨img, found, _, offset, _⟩ := usable.complete
    obtain ⟨k', record, inside⟩ := sane.ckpt img found
    rw [record.offset] at offset
    subst offset
    exact ⟨inside, inside, by omega⟩

/-- A sane start is a prefix of the file. -/
theorem Sane.start_prefix (sane : Sane lib site F fs) {k : UInt64} {B : List UInt8}
    (start : Start site (fs.fileAt site.data) (fs.fileAt (site.ckpt (lib.md5.digest F))) k B) :
    B <+: F := by
  cases start with
  | anew => exact List.nil_prefix
  | resume usable _ => exact sane.data _ usable.data

/-- Between any two calls the files of the session are sane. -/
theorem Sane.stage (sane : Sane lib site F fs) (small : F.length < 2 ^ 31)
    (avoids : site.Avoids lib (lib.md5.digest F)) {t : SysTape lib}
    (stage : (sane.delivery small avoids).Stage t) : Sane lib site F t.world.fs := by
  obtain ⟨cwd, d, c, seen, files⟩ := stage
  have saved : ∀ {k m : Nat} {c' : Option (List UInt8)}, m ≤ F.length →
      Saved site (fs.fileAt (site.ckpt (lib.md5.digest F))) k m c' → ∀ img, c' = some img →
      ∃ k, site.Record k img ∧ k.toNat ≤ F.length := by
    rintro k m c' inside (⟨rfl, _⟩ | ⟨img', rfl, record⟩) img same
    · exact sane.ckpt img same
    · cases same
      refine ⟨_, record, ?_⟩
      rw [UInt64.toNat_ofNat', Nat.mod_eq_of_lt (by omega)]
      exact inside
  refine ⟨seen.view.ready, ?_, ?_⟩
  · intro B here
    rw [show t.world.fs.fileAt site.data = d from seen.view.data] at here
    cases files with
    | untouched => exact sane.data B here
    | writing start first behind inside _ =>
        cases here
        show received _ _ F _ <+: F
        rw [ received_prefix (sane.start_prefix start) start.offset_le (first.trans behind) inside]
        exact List.take_prefix _ _
    | removed => cases here
    | clean => cases here
  · intro img here
    rw [show t.world.fs.fileAt (site.ckpt (lib.md5.digest F)) = c from seen.view.ckpt] at here
    cases files with
    | untouched => exact sane.ckpt img here
    | writing _ _ behind inside kept => exact saved (behind.trans inside) kept img here
    | removed _ kept => exact saved (Nat.le_refl _) kept img here
    | clean => cases here

/-- It makes no difference to the files in which process the session runs. -/
theorem Sane.stage_on (sane : Sane lib site F fs) (small : F.length < 2 ^ 31)
    (avoids : site.Avoids lib (lib.md5.digest F)) {mem : Memory} {terminated : mem.afterHex = []}
    {t : SysTape lib} (stage : ((sane.on mem terminated).delivery small avoids).Stage t) :
    Sane lib site F t.world.fs := by
  have there : Sane lib (site.on mem terminated) F t.world.fs :=
    (sane.on mem terminated).stage small avoids stage
  exact there.on site.mem site.terminated

/-- In every state of a session for `F` the receiver is where its specification allows. -/
theorem Sane.session (sane : Sane lib site F fs) (small : F.length < 2 ^ 31)
    (avoids : site.Avoids lib (lib.md5.digest F)) {s : Sender} (yields : Yields lib s F)
    {c : Pair (Sys lib.md5.Ctx) Sys.Resp Schema.Val Int Int World World}
    (run : Session.Reach lib True (exchange lib site s fs) c) :
    Sane lib site F c.rightTape.world.fs ∧
      ∀ a next, c.right = .call a next → (sane.delivery small avoids).Point c.rightTape (some a) := by
  have tracked := exchange_tracked True (sane.delivery small avoids)
    ⟨0, Nat.zero_le _⟩ (fun _ => id) s yields.prepared
  obtain ⟨p, q, tracked, _, _⟩ := Pair.track (fun _ _ guard => guard.1) (fun _ _ guard => guard.1)
    tracked run
  have here := tracked.right.sound _ _ .refl
  cases right : c.right with
  | ret r =>
      simp only [Pair.rightEnd, right] at here
      refine ⟨sane.stage small avoids here.1, ?_⟩
      intro a next impossible
      cases impossible
  | call a next =>
      simp only [Pair.rightEnd, right] at here
      refine ⟨sane.stage small avoids here.2.1, ?_⟩
      intro a' next' same
      cases same
      exact here.2.2
  | loop body x next =>
      simp only [Pair.rightEnd, right] at here
      refine ⟨sane.stage small avoids here.2.1, ?_⟩
      intro a next impossible
      cases impossible

/-- A partial file to which nothing is missing is the whole file. -/
theorem Sane.complete (sane : Sane lib site F fs) (small : F.length < 2 ^ 31)
    (avoids : site.Avoids lib (lib.md5.digest F)) {t : SysTape lib} {X : List UInt8}
    (complete : (sane.delivery small avoids).Complete t X) :
    t.world.fs.fileAt site.data = some F ∧ X = F := by
  obtain ⟨here, k, B, start, rfl⟩ := complete
  have start : Start site (fs.fileAt site.data) (fs.fileAt (site.ckpt (lib.md5.digest F))) k B :=
    start
  have front := sane.start_prefix start
  have same : received B k.toNat F F.length = F := by
    rw [ received_prefix front start.offset_le (start.offset_le.trans front.length_le)
      (Nat.le_refl _)]
    exact List.take_of_length_le (Nat.le_max_right _ _)
  exact ⟨here.trans (congrArg some same), same⟩

/-- Every history of sessions leaves sane files. -/
theorem Sane.sessions (sane : Sane lib site F fs) (small : F.length < 2 ^ 31)
    (avoids : site.Avoids lib (lib.md5.digest F)) {fs' : Store Name UInt8}
    (history : Relation.ReflTransGen (Session lib site F) fs fs') : Sane lib site F fs' := by
  induction history with
  | refl => exact sane
  | tail _ last ih =>
      obtain ⟨s, mem, terminated, yields, c, run, rfl⟩ := last
      have again := ((ih.on mem terminated).session small avoids yields run).1
      exact again.on site.mem site.terminated

/-- Without a partial file and a checkpoint the files are sane. -/
theorem sane_of_absent (ready : Ready site (lib.md5.digest F) fs)
    (no_data : fs.fileAt site.data = none)
    (no_ckpt : fs.fileAt (site.ckpt (lib.md5.digest F)) = none) : Sane lib site F fs where
  ready := ready
  data B here := by
    rw [no_data] at here
    cases here
  ckpt img here := by
    rw [no_ckpt] at here
    cases here

end Sessions

/-- A session that is cut when the only packet has been received. -/
def smallCut : Pair (Sys reference.md5.Ctx) Sys.Resp Schema.Val Int Int World World :=
  smallRun (turns .left 40 ++ turns .right 10 ++ turns .left 20 ++ turns .right 18) smallStore

/-- The session after it, up to the offset the receiver sends. -/
def smallResumed : Pair (Sys reference.md5.Ctx) Sys.Resp Schema.Val Int Int World World :=
  smallRun (turns .left 40 ++ turns .right 9 ++ turns .left 3 ++ turns .right 1)
    smallCut.rightTape.world.fs

theorem smallResumed_sending : smallResumed.right.sending = some ⟨.offset, 8⟩ := by decide +kernel

end Filerail
