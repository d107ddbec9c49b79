/-
Module: Filerail.Proofs.Exchange
Layer: Proofs
Purpose: The two handlers against each other, each on its own machine. What the sender brings is an
  archive; `Yields` says which. The run of the pair is tracked by the transfer protocol, so that what
  was proved of either handler alone holds in every state of every run.
Imports: Filerail.Logic.Session, Filerail.Proofs.Archive, Filerail.Proofs.Verdict
Main exports: Sender, Yields, Packs, exchange, exchange_tracked, Exchanged
-/
import Filerail.Logic.Session
import Filerail.Proofs.Archive
import Filerail.Proofs.Verdict

namespace Filerail

open FileStore ProgramLogic

variable {lib : Lib}

/-! ### The sending side -/

/-- The arguments of `filerail_sendfile_handler`, and the world of the process that calls it. -/
structure Sender where
  is_server : Bool
  resource_dir : CStr
  resource_name : CStr
  stat_resource : Stat
  world : World

namespace Sender

/-- The call of the handler. -/
def handler (s : Sender) (K : AESKeys) : P lib Int :=
  sendfileHandler s.is_server s.resource_dir s.resource_name s.stat_resource K

/-- The part in front of the first frame. -/
def pack (s : Sender) : L lib (Int ⊕ CStr) :=
  prepare s.resource_dir s.resource_name s.stat_resource

/-- The name of the archive. -/
def zip (s : Sender) : CStr :=
  s.resource_name ++ dotZip

/-- A run of that part, from the world of the sender. -/
def Packing (lib : Lib) (s : Sender) (out : Int ⊕ CStr) (t : SysTape lib) : Prop :=
  Prog.Reach (Alone lib) (s.pack, ⟨s.world, []⟩) (.ret out, t)

end Sender

/-- The archives the sender can come to hold `F`. -/
structure Yields (lib : Lib) (s : Sender) (F : List UInt8) : Prop where
  home : s.world.fs.node s.world.cwd = some .dir
  content : ∀ dir t, s.Packing lib (.inr dir) t → t.world.fs.fileAt (t.world.target s.zip) = some F

/-- The sender always comes to an archive, and it holds `F`. -/
structure Packs (lib : Lib) (s : Sender) (F : List UInt8) : Prop extends Yields lib s F where
  ends : Terminates (Alone lib) s.pack ⟨s.world, []⟩
  succeeds : ∀ status t, ¬ s.Packing lib (.inl status) t

namespace Yields

variable {s : Sender} {F : List UInt8}

theorem prepared (yields : Yields lib s F) :
    Wp (Alone lib) (fun _ e => Unwatched e) False s.pack ⟨s.world, []⟩
      (Prepared still False s.zip (· = F) (fun status t => s.Packing lib (.inl status) t)) := by
  refine wp_mono (wp_reached (prepare_wp shared_still (t := ⟨s.world, []⟩)
    (fun _ => List.not_mem_nil) (Or.inr yields.home) _ _ _)) ?_
  rintro out t ⟨run, ready⟩
  cases out with
  | inl status => exact run
  | inr dir =>
      obtain ⟨F', _, quiet, inv, l, i, home, held, calm, holds, same⟩ := ready
      obtain ⟨target, node, data⟩ := held.file _ holds
      have content := yields.content dir t run
      rw [Sender.zip, target, Store.fileAt_of_node node, data] at content
      cases content
      exact ⟨_, rfl, quiet, inv, l, i, home, held, calm, holds, same⟩

end Yields

theorem Packs.prepared {s : Sender} {F : List UInt8} (packs : Packs lib s F) :
    Wp (Alone lib) (fun _ e => Unwatched e) True s.pack ⟨s.world, []⟩
      (Prepared still False s.zip (· = F) (fun _ _ => False)) := by
  refine wp_mono ⟨packs.toYields.prepared.sound, fun _ => packs.ends⟩ ?_
  intro out t ready
  cases out with
  | inl status => exact packs.succeeds status t ready
  | inr dir => exact ready

/-! ### The two sides -/

/-- The same site in a process whose memory holds something else. -/
def Site.on (site : Site) (mem : Memory) (terminated : mem.afterHex = []) : Site :=
  { site with mem := mem, terminated := terminated }

theorem Ready.on {site : Site} {h : Hash} {fs : Store Name UInt8} (ready : Ready site h fs)
    (mem : Memory) (terminated : mem.afterHex = []) : Ready (site.on mem terminated) h fs := by
  obtain ⟨cwd, dir, ckptDir, parent, data, ckpt, tmp, exdir, links⟩ := ready
  exact ⟨cwd, dir, ckptDir, parent, data, ckpt, tmp, exdir, links⟩

/-- A session before its first step. -/
def exchange (lib : Lib) (site : Site) (s : Sender) (fs : Store Name UInt8) :
    Pair (Sys lib.md5.Ctx) Sys.Resp Schema.Val Int Int World World :=
  Pair.start (s.handler site.K) s.world
    (recvfileHandler site.mem site.resource_name site.resource_dir site.resource_path site.ckpt_path
      site.K) ⟨fs, site.cwd⟩

/-- The states a session can be in; with `lossy` the connection may be lost at any time. -/
abbrev Session.Reach (lib : Lib) (lossy : Prop)
    (c c' : Pair (Sys lib.md5.Ctx) Sys.Resp Schema.Val Int Int World World) : Prop :=
  Pair.Reach lossy (Alone lib) (Alone lib) c c'

/-- How the sender returns in a session for `F`. -/
def Returned (lossy : Prop) (early : Int → SysTape lib → Prop) (F : List UInt8) (r : Int)
    (s : Endpoint (SysTape lib) Phase) : Prop :=
  (early r s.tape ∧ s.pos = .hash ∧ s.broken = false) ∨
    Settled id (Excuse lossy False False F) (lib.md5.digest F) r s

/-- A session is tracked by the protocol of its transfer. -/
theorem exchange_tracked (lossy : Prop) {total : Prop} (v : Delivery lib) (some_offset : ∃ k, v.offsets k)
    (inside : ∀ k, v.offsets k → k.toNat ≤ v.F.length) (s : Sender)
    {early : Int → SysTape lib → Prop}
    (prepared : Wp (Alone lib) (fun _ e => Unwatched e) total s.pack ⟨s.world, []⟩
      (Prepared still False s.zip (· = v.F) early)) :
    Pair.Tracked (transferProtocol .left v.terms) lossy (Alone lib) (Alone lib)
      (Conforms (transferProtocol .left v.terms) id .left)
      (v.guard (transferProtocol .left v.terms) .right) total True
      (Returned lossy early v.F) (v.Outcome id lossy) (exchange lib v.site s v.found) .hash .hash where
  left := by
    have accepts : ∀ F, F = v.F → Accepts lib v.site.K False v.terms F := by
      rintro _ rfl
      exact accepts_pinned v.small some_offset inside
    refine wp_mono (sendfileHandler_wp id .left
      (carries_transfer .left v.terms) (fun _ => id) accepts prepared) ?_
    rintro r e (unprepared | ⟨F, rfl, settled⟩)
    · exact Or.inl unprepared
    · exact Or.inr settled
  right := Delivery.recvfileHandler_wp id .left
    (carries_transfer .left v.terms) rfl (fun _ _ => List.not_mem_nil)
  compat := Or.inl ⟨rfl, rfl⟩

/-! ### Sessions over a connection that stays up -/

section Uninterrupted

variable {v : Delivery lib} {s : Sender}
  {c : Pair (Sys lib.md5.Ctx) Sys.Resp Schema.Val Int Int World World}

/-- The offsets the sender is ready for are those inside the file. -/
structure Delivery.Bounded (v : Delivery lib) : Prop where
  some_offset : ∃ k, v.offsets k
  inside : ∀ k, v.offsets k → k.toNat ≤ v.F.length
  small : v.F.length < 2 ^ 63

theorem Delivery.Bounded.tracked (bounded : v.Bounded) (packs : Packs lib s v.F) :
    Pair.Tracked (transferProtocol .left v.terms) False (Alone lib) (Alone lib)
      (Conforms (transferProtocol .left v.terms) id .left)
      (v.guard (transferProtocol .left v.terms) .right) True True
      (Returned False (fun _ _ => False) v.F) (v.Outcome id False) (exchange lib v.site s v.found)
      .hash .hash :=
  exchange_tracked False v bounded.some_offset bounded.inside s packs.prepared

/-- Both sides come to their end. -/
theorem Delivery.Bounded.ends (bounded : v.Bounded) (packs : Packs lib s v.F) :
    Acc (fun c' c => Pair.Step False (Alone lib) (Alone lib) c c') (exchange lib v.site s v.found) :=
  Pair.acc_of_terminates (fun _ _ guard => guard.1) (fun _ _ guard => guard.1) trivial trivial
    (bounded.tracked packs)

theorem Returned.settled {F : List UInt8} (small : F.length < 2 ^ 63) {a : Int}
    {e : Endpoint (SysTape lib) Phase} (returned : Returned False (fun _ _ => False) F a e) :
    ∃ code, e.pos = .done (lib.md5.digest F) code ∧ (code = Response.ok.code → a = 0) := by
  rcases returned with ⟨never, _⟩ | ⟨_, excuse | ⟨code, done, _, zero⟩⟩
  · exact never.elim
  · have large : 2 ^ 63 ≤ F.length := by
      simpa [Excuse] using excuse
    omega
  · exact ⟨code, done, zero⟩

theorem Delivery.Outcome.concluded {lossy : Prop} (reliable : ¬ lossy) {b : Int}
    {e : Endpoint (SysTape lib) Phase} (outcome : v.Outcome id lossy b e) :
    v.Concluded id e ∧ ∃ code, e.pos = .done v.hash code := by
  have concluded := outcome.2.resolve_left reliable
  refine ⟨concluded, ?_⟩
  obtain ⟨_, k, B, _, ⟨_, done, _⟩ | ⟨_, done, _⟩⟩ := concluded
  · exact ⟨_, done⟩
  · exact ⟨_, done⟩

/-- The end of a session over a connection that stays up: both have returned, the receiver has
    concluded the delivery, and the sender knows how. -/
theorem Delivery.Bounded.stuck (bounded : v.Bounded) (packs : Packs lib s v.F)
    (run : Session.Reach lib False (exchange lib v.site s v.found) c)
    (stuck : ∀ c', ¬ Pair.Step False (Alone lib) (Alone lib) c c') :
    ∃ a b p, c.left = .ret a ∧ c.right = .ret b ∧
      v.Concluded id { tape := c.rightTape, pos := p, broken := c.rightBroken } ∧
      (p = .done v.hash Response.ok.code → a = 0) := by
  obtain ⟨p, q, tracked, _, _⟩ := Pair.track (fun _ _ guard => guard.1) (fun _ _ guard => guard.1)
    (bounded.tracked packs) run
  obtain ⟨upL, upR⟩ := Pair.reach_up id run rfl rfl
  have ended : ∀ (p : Phase) code, p = .done v.hash code →
      (transferProtocol .left v.terms).turn p = none := by
    rintro p code rfl
    rfl
  obtain ⟨⟨a, left⟩, b, right⟩ := Pair.stuck_returned (fun _ _ guard => guard.1)
    (fun _ _ guard => guard.1) trivial trivial id
    (fun a e returned => ended _ _ (returned.settled bounded.small).choose_spec.1)
    (fun b e outcome => ended _ _ (outcome.concluded id).2.choose_spec) tracked upL upR stuck
  have hereL := tracked.left.sound _ _ .refl
  have hereR := tracked.right.sound _ _ .refl
  simp only [Pair.leftEnd, left] at hereL
  simp only [Pair.rightEnd, right] at hereR
  obtain ⟨code, done, zero⟩ := Returned.settled bounded.small hereL
  obtain ⟨concluded, code', done'⟩ := Delivery.Outcome.concluded (b := b) id hereR
  refine ⟨a, b, q, left, right, concluded, fun verdict => zero ?_⟩
  have same := tracked.compat.eq_of_over (ended _ _ done) (ended _ _ done')
  have agreed : Phase.done v.hash code = Phase.done v.hash Response.ok.code :=
    done.symm.trans (same.trans verdict)
  cases agreed
  rfl

end Uninterrupted

end Filerail
