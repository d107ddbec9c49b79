/-
Module: Filerail.Proofs.Upload
Layer: Proofs
Purpose: Whole uploads: the program of the client against the child of the server, from the command to
  the return, with nothing at the destination yet. Uploads of one resource follow one another, each of
  them cut anywhere; the one whose connection stays up ends, and leaves the resource at the server.
Imports: Filerail.Proofs.Dialogue, Filerail.Proofs.Healing, Filerail.Proofs.Resume,
  Filerail.Proofs.Transaction
Main exports: Puts, uploadAgenda, Puts.client_wp, Delivery.server_wp, Attempt, upload_resumes
-/
import Filerail.Proofs.Dialogue
import Filerail.Proofs.Healing
import Filerail.Proofs.Resume
import Filerail.Proofs.Transaction

namespace Filerail

open FileStore ProgramLogic

variable {lib : Lib}

/-! ### The two programs -/

/-- The child of a server that finds the files of the site. -/
def Site.clerk (site : Site) (fs : Store Name UInt8) : Clerk where
  mem := site.mem
  ckpt_path := site.ckpt_path
  K := site.K
  world := ⟨fs, site.cwd⟩

/-- Where the resource of a site is to be. -/
def Site.destination (site : Site) : Loc :=
  resolve site.cwd (site.resource_dir ++ slash :: site.resource_name)

/-- What the client calls the sending handler with. -/
def Customer.sender (client : Customer) (dir name : CStr) (st : Stat) : Sender where
  is_server := false
  resource_dir := dir
  resource_name := name
  stat_resource := st
  world := client.world

/-- The client is to put a resource, which it has under `res_path`, to the site. -/
structure Puts (client : Customer) (res_path dir : CStr) (site : Site) : Prop where
  operation : client.operation = PUT_OPERATION
  source : client.res_path = some res_path
  target : client.des_path = some site.resource_dir
  key : client.K = site.K
  resource : client.world.Offers res_path
  split : ∃ name buffer, parseResourcePath res_path client.stack.resource_name
      client.stack.resource_dir = some (true, name, buffer) ∧
    client.stack.nameRead name = site.resource_name ∧ client.stack.dirRead buffer = dir
  fits : site.resource_name.length < MAX_RESOURCE_LENGTH

/-- What the frames of an upload carry beyond being legal: the header names the resource of the site. -/
def uploadAgenda (v : Delivery lib) : Agenda where
  upload := v.terms
  download := anything
  remark
    | .command, m => m = ⟨.code, Command.put.code⟩
    | .putHeader, ⟨.resource, resource⟩ =>
        resource.nameStr = v.site.resource_name ∧ resource.dirStr = v.site.resource_dir
    | _, _ => True

section Programs

variable {v : Delivery lib} {lossy total : Prop} {client : Customer} {res_path dir : CStr}

/-- The header the client sends names the resource of the site. -/
theorem put_header (fits : v.site.resource_name.length < MAX_RESOURCE_LENGTH) (size : UInt64) :
    (Talk.putHeader).allowed (uploadAgenda v) ⟨.resource, ⟨size, pad _ v.site.resource_name,
      pad _ v.site.resource_dir⟩⟩ := by
  have clean := v.site.path_clean
  have long := v.site.path_fits
  simp only [List.mem_append, List.mem_cons, List.length_append, List.length_cons, not_or] at clean long
  exact ⟨rfl, header_names clean.2.2.1 clean.1 fits (by omega)⟩

namespace Puts

theorem on {site : Site} (puts : Puts client res_path dir site) (mem : Memory)
    (terminated : mem.afterHex = []) : Puts client res_path dir (site.on mem terminated) :=
  ⟨puts.operation, puts.source, puts.target, puts.key, puts.resource, puts.split, puts.fits⟩

/-- The client keeps to an upload of the resource. -/
theorem client_wp (puts : Puts client res_path dir v.site) (bounded : v.Bounded)
    (supplies : ∀ st, client.world.Finds res_path st →
      Supplies lib lossy total (client.sender dir v.site.resource_name st) v.F) :
    Wp (endpointSem (conversation (uploadAgenda v)) .left lossy (Alone lib))
      (Obeys (conversation (uploadAgenda v)) .left) total (client.program lib)
      ⟨⟨client.world, []⟩, .command, false⟩
      (fun r e => SenderEnds .upload lossy v.hash r e) := by
  have preamble : Preamble lib (uploadAgenda v) .left (Obeys (conversation (uploadAgenda v)) .left)
      client.world Unremoved := preamble_sender _ _ _
  have cut : lossy → ∀ {r : Int} {e : Endpoint (SysTape lib) Talk},
      SenderEnds .upload lossy v.hash r e := fun lost _ _ => Or.inl lost
  obtain ⟨name, buffer, split, named, placed⟩ := puts.split
  unfold Customer.program runOperation
  rw [puts.operation, puts.source, puts.target, puts.key, if_neg (by decide), if_pos rfl]
  unfold clientPut
  simp only [Prog.bind_eq, Prog.pure_eq]
  refine preamble.look rfl (fun _ => List.not_mem_nil) (e := .lstat res_path) ⟨trivial, trivial⟩
    (fun r t₁ here unremoved does => ?_)
  obtain ⟨st, rfl, kind, readable⟩ := puts.resource.found does.1
  have finds : client.world.Finds res_path st := does.1
  refine preamble.look here unremoved (e := .access res_path .r) ⟨trivial, trivial⟩
    (fun ok t₂ here unremoved does => ?_)
  obtain rfl : ok = true := does.1.mpr readable
  rw [if_pos rfl, if_pos kind]
  refine preamble.sayCode here unremoved .command rfl ⟨Talk.legal_of_code (by decide), rfl⟩ (fun t₃ here unremoved => ?_)
    (fun lost t₃ _ _ => wp_ret.mpr (cut lost))
  rw [if_pos rfl, split]
  dsimp only
  rw [if_pos rfl, named, placed]
  unfold requestPut
  simp only [Prog.bind_eq, Prog.pure_eq]
  refine preamble.sayHeader here unremoved .putHeader rfl (put_header puts.fits _)
    (fun t₄ here unremoved => ?_) (fun lost t₄ _ _ => wp_ret.mpr (cut lost))
  rw [if_pos rfl]
  have sends : ∀ {t : SysTape lib}, t.world = client.world → Unremoved t.log →
      Wp (endpointSem (conversation (uploadAgenda v)) .left lossy (Alone lib))
        (Obeys (conversation (uploadAgenda v)) .left) total
        (clientPutFile v.site.K dir v.site.resource_name st) ⟨t, .upload .hash, false⟩
        (fun r e => SenderEnds .upload lossy v.hash r e) := by
    intro t here unremoved
    unfold clientPutFile
    apply wp_bind
    refine wp_mono ((supplies st finds).sends bounded (carries_upload (uploadAgenda v)) here
      unremoved) ?_
    rintro r e ⟨rfl | rfl, ends⟩
    · exact wp_ret.mpr ends
    · exact wp_ret.mpr ends
  refine preamble.hearCode here unremoved .admission rfl rfl
    ⟨Response.ok.code, Talk.legal_of_code (by decide), trivial⟩
    (fun c t₅ may here unremoved => ?_) (fun lost t₅ _ _ => wp_ret.mpr (cut lost))
  have among : c ∈ Talk.admission.codes := may.1
  simp only [Talk.codes, List.mem_cons, List.not_mem_nil, or_false] at among
  dsimp only
  rcases among with rfl | rfl | rfl | rfl | rfl
  · rw [if_neg (by decide), if_neg (by decide), if_neg (by decide), if_neg (by decide), if_pos rfl]
    exact sends here unremoved
  · rw [if_neg (by decide), if_pos rfl]
    unfold wantsOverwrite
    simp only [Prog.bind_eq, Prog.pure_eq, Prog.loc_bind, Prog.bind_assoc]
    refine preamble.look here unremoved (e := .scanf) ⟨trivial, trivial⟩
      (fun option t₆ here unremoved _ => ?_)
    rw [Prog.loc_ret, Prog.ret_bind]
    split
    · refine preamble.sayCode here unremoved .overwrite rfl ⟨Talk.legal_of_code (by decide), trivial⟩
        (fun t₇ here unremoved => ?_) (fun lost t₇ _ _ => wp_ret.mpr (cut lost))
      rw [if_pos rfl]
      exact sends here unremoved
    · refine preamble.sayCode here unremoved .overwrite rfl ⟨Talk.legal_of_code (by decide), trivial⟩
        (fun t₇ _ _ => wp_ret.mpr (Or.inr (Or.inl ⟨rfl, rfl⟩)))
        (fun lost t₇ _ _ => wp_ret.mpr (cut lost))
  · rw [if_neg (by decide), if_neg (by decide), if_pos rfl]
    exact wp_ret.mpr (Or.inr (Or.inl ⟨rfl, rfl⟩))
  · rw [if_pos rfl]
    exact wp_ret.mpr (Or.inr (Or.inl ⟨rfl, rfl⟩))
  · rw [if_neg (by decide), if_neg (by decide), if_neg (by decide), if_pos rfl]
    exact wp_ret.mpr (Or.inr (Or.inl ⟨rfl, rfl⟩))

end Puts

/-- The path of the header leads to the destination, and the path of the archive is that of the site. -/
theorem header_path {resource : ResourceHeader} (named : resource.nameStr = v.site.resource_name)
    (placed : resource.dirStr = v.site.resource_dir) :
    resource.path = v.site.resource_dir ++ slash :: v.site.resource_name ∧
      resource.path ++ dotZip = v.site.resource_path := by
  have path : resource.path = v.site.resource_dir ++ slash :: v.site.resource_name := by
    rw [ResourceHeader.path, named, placed]
  refine ⟨path, ?_⟩
  rw [path, Site.resource_path, List.append_assoc, List.cons_append]

/-- The directory of the resource is there. -/
theorem Delivery.directory (v : Delivery lib) :
    v.before.fs.node (v.before.target v.site.resource_dir) = some .dir := by
  rw [World.target, Store.follow_eq_self (fun l link => by
    rw [show v.before.loc v.site.resource_dir = v.site.dir from rfl,
      show v.before.fs = v.found from rfl, v.ready.dir] at link
    cases link) _]
  exact v.ready.dir

/-- The child keeps to an upload of the resource. -/
theorem Delivery.server_wp (v : Delivery lib) (free : v.found.node v.site.destination = none)
    (fits : v.site.resource_name.length < MAX_RESOURCE_LENGTH) :
    Wp (endpointSem (conversation (uploadAgenda v)) .right lossy (Alone lib))
      (v.guard (conversation (uploadAgenda v)) .right) total ((v.site.clerk v.found).program lib)
      ⟨⟨v.before, []⟩, .command, false⟩ (fun _ e => v.ReceiverEnds .upload lossy e) := by
  have preamble := v.preamble_receiver (uploadAgenda v) .right
  have fresh : Unhashed ([] : List (SysEvent lib)) ∧ ¬ Extracted ([] : List (SysEvent lib)) := by
    refine ⟨fun _ _ => List.not_mem_nil, ?_⟩
    rintro ⟨_, _, logged⟩
    cases logged
  unfold Clerk.program serveClient
  simp only [Prog.bind_eq, Prog.pure_eq]
  refine preamble.hearCode rfl fresh .command rfl rfl
    ⟨Command.put.code, Talk.legal_of_code (by decide), rfl⟩ (fun c t₁ may here calm => ?_)
    (fun lost t₁ here _ => wp_ret.mpr (ends_before here (Or.inl lost)))
  cases may.2
  dsimp only
  rw [if_pos rfl]
  unfold servePut
  simp only [Prog.bind_eq, Prog.pure_eq]
  refine preamble.hearHeader here calm .putHeader rfl rfl ⟨_, put_header fits 0⟩
    (fun resource t₂ may here calm => ?_)
    (fun lost t₂ here _ => wp_ret.mpr (ends_before here (Or.inl lost)))
  have named : resource.nameStr = v.site.resource_name := may.2.1
  have placed : resource.dirStr = v.site.resource_dir := may.2.2
  obtain ⟨path, archive⟩ := header_path named placed
  refine preamble.storage here calm _ (fun ok t₃ here calm => ?_)
  cases ok with
  | false =>
      refine preamble.sayCode here calm .admission rfl
        ⟨Talk.legal_of_code (by decide), trivial⟩
        (fun t₄ here _ => wp_ret.mpr (ends_before here (Or.inr rfl)))
        (fun lost t₄ here _ => wp_ret.mpr (ends_before here (Or.inl lost)))
  | true =>
      rw [if_pos rfl, path, placed]
      refine preamble.look here calm (e := .lstat _) ⟨trivial, trivial⟩
        (fun r t₄ here calm does => ?_)
      obtain rfl : r = none := (statOf_absent free).mp does.1
      refine preamble.look here calm (e := .stat _) ⟨trivial, trivial⟩
        (fun r t₅ here calm does => ?_)
      cases r with
      | none =>
          have absent : v.before.fs.node (v.before.target v.site.resource_dir) = none := does.1
          rw [v.directory] at absent
          cases absent
      | some st =>
          refine preamble.look here calm (e := .access _ .w) ⟨trivial, trivial⟩
            (fun ok t₆ here calm does => ?_)
          obtain rfl : ok = true := does.1.mpr (by
            rw [v.directory]
            exact Option.some_ne_none _)
          rw [if_pos rfl]
          refine preamble.sayCode here calm .admission rfl
            ⟨Talk.legal_of_code (by decide), trivial⟩ (fun t₇ here calm => ?_)
            (fun lost t₇ here _ => wp_ret.mpr (ends_before here (Or.inl lost)))
          rw [if_pos rfl]
          unfold serverPutFile
          rw [named, placed, archive]
          apply wp_bind
          refine wp_mono (receives (carries_upload (uploadAgenda v)) here calm) ?_
          intro r e received
          exact wp_ret.mpr received.ends

end Programs

/-! ### One upload -/

section Uploads

variable {v : Delivery lib} {client : Customer} {res_path dir : CStr} {c : Meeting lib}

/-- An upload between two machines that do what they are asked; with `lossy` the connection may be lost
    at any time. -/
abbrev Upload.Reach (lib : Lib) (lossy : Prop) (c c' : Meeting lib) : Prop :=
  Pair.Reach lossy (Alone lib) (Alone lib) c c'

theorem upload_tracked {lossy total : Prop} (bounded : v.Bounded)
    (free : v.found.node v.site.destination = none) (puts : Puts client res_path dir v.site)
    (supplies : ∀ st, client.world.Finds res_path st →
      Supplies lib lossy total (client.sender dir v.site.resource_name st) v.F) :
    Pair.Tracked (conversation (uploadAgenda v)) lossy (Alone lib) (Alone lib)
      (Obeys (conversation (uploadAgenda v)) .left) (v.guard (conversation (uploadAgenda v)) .right)
      total True (fun r e => SenderEnds .upload lossy v.hash r e)
      (fun _ e => v.ReceiverEnds .upload lossy e) (session lib client (v.site.clerk v.found))
      .command .command where
  left := puts.client_wp bounded supplies
  right := v.server_wp free puts.fits
  compat := Or.inl ⟨rfl, rfl⟩

/-- In every state of an upload the files of the server are as a delivery may leave them. -/
theorem upload_stage {lossy total : Prop} (bounded : v.Bounded)
    (free : v.found.node v.site.destination = none) (puts : Puts client res_path dir v.site)
    (supplies : ∀ st, client.world.Finds res_path st →
      Supplies lib lossy total (client.sender dir v.site.resource_name st) v.F)
    (run : Upload.Reach lib lossy (session lib client (v.site.clerk v.found)) c) :
    v.Stage c.rightTape := by
  obtain ⟨p, q, tracked, _, _⟩ := Pair.track (fun _ _ obeys => obeys) (fun _ _ guard => guard.1)
    (upload_tracked bounded free puts supplies) run
  have here : v.Stage (c.rightEnd q).2.tape :=
    tracked.right.holds (I := fun e => v.Stage e.tape) (fun _ _ guard => guard.2.1)
      (fun _ _ ends => ends.1)
  exact here

/-- An upload whose connection stays up ends, however the two sides take turns: both return, the client
    with `0`, and the server has refused, with its files as they were, or has the archive. -/
theorem upload_settled (bounded : v.Bounded) (intact : v.Intact)
    (free : v.found.node v.site.destination = none) (puts : Puts client res_path dir v.site)
    (packs : ∀ st, client.world.Finds res_path st →
      Packs lib (client.sender dir v.site.resource_name st) v.F) :
    Ends lib (session lib client (v.site.clerk v.found)) ∧
      ∀ c, Upload.Reach lib False (session lib client (v.site.clerk v.found)) c →
        (∀ c', ¬ Pair.Step False (Alone lib) (Alone lib) c c') →
        (∀ path dir, (⟨.loc (.zipExtract path dir), false⟩ : SysEvent lib) ∉ c.rightTape.log) →
        c.left = .ret 0 ∧ (∃ b, c.right = .ret b) ∧
          (c.rightTape.world = v.before ∨
            Unloaded lib v.site v.F v.found c.rightTape.world.fs) := by
  have tracked := upload_tracked bounded free puts (fun st finds => (packs st finds).supplies)
  obtain ⟨ends, returns⟩ := Pair.settles (fun _ _ obeys => obeys) (fun _ _ guard => guard.1) trivial
    trivial id (fun _ _ ends => ends.quiet (fun _ _ => rfl)) (fun _ _ ends => ends.quiet (fun _ _ => rfl))
    tracked rfl rfl
  refine ⟨ends, ?_⟩
  intro c run stuck extracts
  obtain ⟨a, b, p, left, right, sent, received⟩ := returns c run stuck
  obtain ⟨rfl, arrived⟩ := v.settled (fun _ _ => Talk.upload.inj) (fun _ => Talk.noConfusion) intact
    sent received rfl extracts
  exact ⟨left, ⟨b, right⟩, arrived⟩

/-- An upload of `F` to the site in some process, and what it leaves when it is cut. -/
def Attempt (lib : Lib) (site : Site) (F : List UInt8) (fs fs' : Store Name UInt8) : Prop :=
  ∃ client res_path dir mem terminated, Puts client res_path dir site ∧
    (∀ st, client.world.Finds res_path st → Yields lib (client.sender dir site.resource_name st) F) ∧
    fs.node site.destination = none ∧
    ∃ c, Upload.Reach lib True (session lib client ((site.on mem terminated).clerk fs)) c ∧
      c.rightTape.world.fs = fs'

variable {site : Site} {F : List UInt8} {fs fs' : Store Name UInt8}

theorem Sane.deliverable (sane : Sane lib site F fs) (small : F.length < 2 ^ 31)
    (avoids : site.Avoids lib (lib.md5.digest F)) : (sane.delivery small avoids).Bounded where
  some_offset := ⟨0, Nat.zero_le _⟩
  inside _ := id
  small := by
    show F.length < 2 ^ 63
    omega

/-- What is added to a prefix of the file makes up the file. -/
theorem Sane.intact (sane : Sane lib site F fs) (small : F.length < 2 ^ 31)
    (avoids : site.Avoids lib (lib.md5.digest F)) : (sane.delivery small avoids).Intact := by
  intro k B start
  have front : B <+: F := sane.start_prefix start
  show received B k.toNat F F.length = F
  rw [ received_prefix front start.offset_le (start.offset_le.trans front.length_le) (Nat.le_refl _)]
  exact List.take_of_length_le (Nat.le_max_right _ _)

/-- An upload leaves sane files, wherever it is cut. -/
theorem Sane.attempt (sane : Sane lib site F fs) (small : F.length < 2 ^ 31)
    (avoids : site.Avoids lib (lib.md5.digest F)) (attempt : Attempt lib site F fs fs') :
    Sane lib site F fs' := by
  obtain ⟨client, res_path, dir, mem, terminated, puts, yields, free, c, run, rfl⟩ := attempt
  have there := sane.on mem terminated
  have stage : (there.delivery small avoids).Stage c.rightTape :=
    upload_stage (there.deliverable small avoids) free (puts.on mem terminated)
      (fun st finds => (yields st finds).supplies) run
  exact sane.stage_on small avoids stage

theorem Sane.attempts (sane : Sane lib site F fs) (small : F.length < 2 ^ 31)
    (avoids : site.Avoids lib (lib.md5.digest F))
    (history : Relation.ReflTransGen (Attempt lib site F) fs fs') : Sane lib site F fs' := by
  induction history with
  | refl => exact sane
  | tail _ last ih => exact ih.attempt small avoids last

end Uploads

/-! ### An upload that is cut, and the one after it -/

/-- The file `/s/a` is to be put into `/d`. -/
def putter : Customer where
  stack := Stack.zeros []
  ckpt_path := [slash, 99]
  K := smallSite.K
  operation := PUT_OPERATION
  res_path := some [slash, 115, slash, 97]
  des_path := some [slash, 100]
  world := smallSender.world

theorem putter_puts : Puts putter [slash, 115, slash, 97] [slash, 115] smallSite where
  operation := rfl
  source := rfl
  target := rfl
  key := rfl
  resource := Or.inl ⟨0, by decide +kernel⟩
  split := ⟨_, _, rfl, by decide +kernel, by decide +kernel⟩
  fits := by decide

theorem putter_packable (st : Stat) (finds : putter.world.Finds [slash, 115, slash, 97] st) :
    Packable (putter.sender [slash, 115] smallSite.resource_name st) [104, 105] := by
  have file : putter.world.fs.node (putter.world.loc [slash, 115, slash, 97]) = some (.file 0) := by
    decide +kernel
  have content : (putter.world.fs.data 0).length = 2 := by decide +kernel
  have same := (statOf_file file).mp finds
  rw [content] at same
  cases same
  exact packable_small

theorem putter_packs (st : Stat) (finds : putter.world.Finds [slash, 115, slash, 97] st) :
    Packs reference (putter.sender [slash, 115] smallSite.resource_name st) smallZip :=
  (putter_packable st finds).packs

/-- An upload of the file as the script has it. -/
def putRun (script : List (Side × Pair.Move Fate)) (fs : Store Name UInt8) : Meeting reference :=
  Pair.play (machine reference False).onTape (machine reference False).onTape script
    (session reference putter (smallSite.clerk fs))

/-- The upload is cut behind its only packet. -/
@[irreducible] def cutUpload : Meeting reference :=
  putRun (turns .left 6 ++ turns .right 20 ++ turns .left 20 ++ turns .right 5 ++ turns .left 20 ++
    turns .right 18) smallStore

/-- The upload after it. -/
@[irreducible] def resumedUpload : Meeting reference :=
  putRun (turns .left 6 ++ turns .right 20 ++ turns .left 20 ++ turns .right 20 ++ turns .left 20 ++
    turns .right 20 ++ turns .left 20 ++ turns .right 40 ++ turns .left 10) cutUpload.rightTape.world.fs

/-- There is nothing at the destination. -/
def absentAt (w : World) : Bool :=
  (w.fs.node smallSite.destination).isNone

/-- The first upload leaves nothing at the destination; in the second both sides have returned, no
    extraction has failed, and the resource is there. -/
theorem uploads_shown : absentAt cutUpload.rightTape.world = true ∧
    (finished resumedUpload && !absentAt resumedUpload.rightTape.world) = true := by
  rw [← Bool.and_eq_true]
  decide +kernel

theorem reach_cutUpload :
    Upload.Reach reference True (session reference putter (smallSite.clerk smallStore)) cutUpload := by
  unfold cutUpload
  exact Pair.reach_play _ _ _ (fun _ _ _ => trivial) _

theorem reach_resumedUpload : Upload.Reach reference False
    (session reference putter (smallSite.clerk cutUpload.rightTape.world.fs)) resumedUpload := by
  unfold resumedUpload
  refine Pair.reach_play _ _ _ ?_ _
  intro m member lost
  simp only [List.mem_append, or_assoc] at member
  have works : m.2 = .act .works := by
    rcases member with turn | turn | turn | turn | turn | turn | turn | turn | turn
    all_goals exact act_of_turns turn
  rw [works] at lost
  cases lost

theorem cutUpload_attempt :
    Attempt reference smallSite smallZip smallStore cutUpload.rightTape.world.fs :=
  ⟨putter, _, _, smallSite.mem, smallSite.terminated, putter_puts,
    fun st finds => (putter_packs st finds).toYields, by decide +kernel, cutUpload, reach_cutUpload, rfl⟩

/-- The only entry of the archive goes to the destination. -/
theorem smallZip_arrived {fs fs' : Store Name UInt8} (nothing : fs.node smallSite.destination = none)
    (arrived : Unloaded reference smallSite smallZip fs fs') :
    fs'.fileAt (walk smallSite.exdir [] [97]) = some [104, 105] := by
  have archive : reference.zip.entries smallZip = some [([97], [104, 105])] :=
    referenceZip.entries_archive [([97], [104, 105])]
  have place : walk smallSite.exdir [] [97] = smallSite.destination := by decide +kernel
  refine arrived.files _ archive ?_ (List.pairwise_singleton _ _) _ List.mem_cons_self
  intro e member
  obtain rfl := List.mem_singleton.mp member
  rw [place]
  exact nothing

/-- Where a resource is in the end, the receiver has not refused. -/
theorem smallZip_settled {fs : Store Name UInt8} {w : World}
    (nothing : fs.node smallSite.destination = none) (there : (!absentAt w) = true)
    (settled : w = ⟨fs, smallSite.cwd⟩ ∨ Unloaded reference smallSite smallZip fs w.fs) :
    w.fs.fileAt (walk smallSite.exdir [] [97]) = some [104, 105] := by
  rcases settled with rfl | arrived
  · have gone : absentAt ⟨fs, smallSite.cwd⟩ = true := Option.isNone_iff_eq_none.mpr nothing
    rw [gone] at there
    cases there
  · exact smallZip_arrived nothing arrived

theorem not_unextracted {log : List (SysEvent reference)} (calm : (!log.any unextracted) = true)
    (path dir : CStr) : (⟨.loc (.zipExtract path dir), false⟩ : SysEvent reference) ∉ log := by
  intro logged
  rw [Bool.not_eq_true', List.any_eq_false] at calm
  exact calm _ logged rfl

end Filerail
