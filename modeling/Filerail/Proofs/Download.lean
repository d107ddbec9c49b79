/-
Module: Filerail.Proofs.Download
Layer: Proofs
Purpose: Whole downloads, as in `Filerail.Proofs.Upload`: now the client receives, and it may go on into
  the transfer although its answer to the size was lost.
Imports: Filerail.Proofs.Upload
Main exports: Gets, Serves, downloadAgenda, Gets.client_wp, Serves.server_wp, Retrieval,
  download_resumes
-/
import Filerail.Proofs.Upload

namespace Filerail

open FileStore ProgramLogic

variable {lib : Lib}

/-! ### The two programs -/

/-- What the child calls the sending handler with. -/
def Clerk.sender (server : Clerk) (dir name : CStr) (st : Stat) : Sender where
  is_server := true
  resource_dir := dir
  resource_name := name
  stat_resource := st
  world := server.world

/-- The client is to get the resource of the site, which the server has in `dir`; it finds the files
    `fs`. -/
structure Gets (client : Customer) (res_path dir : CStr) (site : Site) (fs : Store Name UInt8) :
    Prop where
  operation : client.operation = GET_OPERATION
  source : client.res_path = some res_path
  target : client.des_path = some site.resource_dir
  key : client.K = site.K
  memory : client.stack.memory = site.mem
  checkpoints : client.ckpt_path = site.ckpt_path
  world : client.world = ⟨fs, site.cwd⟩
  split : ∃ name buffer, parseResourcePath res_path client.stack.resource_name
      client.stack.resource_dir = some (true, name, buffer) ∧
    client.stack.nameRead name = site.resource_name ∧ client.stack.dirRead buffer = dir
  name_fits : site.resource_name.length < MAX_RESOURCE_LENGTH
  dir_fits : dir.length < MAX_PATH_LENGTH
  dir_clean : (0 : UInt8) ∉ dir

/-- The child of a server has the resource of the site in `dir`. -/
structure Serves (server : Clerk) (dir : CStr) (site : Site) : Prop where
  key : server.K = site.K
  resource : server.world.Offers (dir ++ slash :: site.resource_name)

/-- What the frames of a download carry beyond being legal: the header names the resource, and the server
    has it. -/
def downloadAgenda (v : Delivery lib) (dir : CStr) : Agenda where
  upload := anything
  download := v.terms
  remark
    | .command, m => m = ⟨.code, Command.get.code⟩
    | .getHeader, ⟨.resource, resource⟩ =>
        resource.nameStr = v.site.resource_name ∧ resource.dirStr = dir
    | .permission, m => m = ⟨.code, Response.ok.code⟩
    | _, _ => True

section Programs

variable {v : Delivery lib} {lossy total : Prop} {client : Customer} {server : Clerk}
  {res_path dir : CStr}

namespace Gets

/-- The header the client sends names the resource. -/
theorem header (gets : Gets client res_path dir v.site v.found) :
    (Talk.getHeader).allowed (downloadAgenda v dir) ⟨.resource, ⟨0, pad _ v.site.resource_name,
      pad _ dir⟩⟩ := by
  have clean := v.site.path_clean
  simp only [List.mem_append, List.mem_cons, not_or] at clean
  exact ⟨rfl, header_names clean.2.2.1 gets.dir_clean gets.name_fits gets.dir_fits⟩

/-- The client keeps to a download of the resource. -/
theorem client_wp (gets : Gets client res_path dir v.site v.found)
    (free : v.found.node v.site.destination = none) :
    Wp (endpointSem (conversation (downloadAgenda v dir)) .left lossy (Alone lib))
      (v.guard (conversation (downloadAgenda v dir)) .left) total (client.program lib)
      ⟨⟨client.world, []⟩, .command, false⟩ (fun _ e => v.ReceiverEnds .download lossy e) := by
  have preamble := v.preamble_receiver (downloadAgenda v dir) .left
  have fresh : Unhashed ([] : List (SysEvent lib)) ∧ ¬ Extracted ([] : List (SysEvent lib)) := by
    refine ⟨fun _ _ => List.not_mem_nil, ?_⟩
    rintro ⟨_, _, logged⟩
    cases logged
  have before : client.world = v.before := gets.world
  have cut : lossy → ∀ {t : SysTape lib} {p : Talk} {b : Bool}, t.world = v.before →
      v.ReceiverEnds .download lossy ⟨t, p, b⟩ :=
    fun lost _ _ _ here => Delivery.ends_before here (Or.inl lost)
  have archive : v.site.resource_dir ++ slash :: v.site.resource_name ++ dotZip =
      v.site.resource_path := by
    rw [Site.resource_path, List.append_assoc, List.cons_append]
  obtain ⟨name, buffer, split, named, placed⟩ := gets.split
  unfold Customer.program runOperation
  rw [gets.operation, gets.source, gets.target, gets.key, gets.checkpoints, before,
    if_neg (by decide), if_neg (by decide), if_pos rfl]
  unfold clientGet
  dsimp only
  rw [split, gets.memory]
  dsimp only
  rw [if_pos rfl, named, placed]
  unfold prepareGet
  simp only [Prog.bind_eq, Prog.pure_eq]
  refine preamble.look rfl fresh (e := .lstat _) ⟨trivial, trivial⟩ (fun r t₁ here calm does => ?_)
  obtain rfl : r = none := (statOf_absent free).mp does.1
  refine preamble.look here calm (e := .stat _) ⟨trivial, trivial⟩ (fun r t₂ here calm does => ?_)
  cases r with
  | none =>
      have absent : v.before.fs.node (v.before.target v.site.resource_dir) = none := does.1
      rw [v.directory] at absent
      cases absent
  | some st =>
      refine preamble.look here calm (e := .access _ .w) ⟨trivial, trivial⟩
        (fun ok t₃ here calm does => ?_)
      obtain rfl : ok = true := does.1.mpr (by
        rw [v.directory]
        exact Option.some_ne_none _)
      rw [if_pos rfl]
      unfold requestGet
      simp only [Prog.bind_eq, Prog.pure_eq]
      refine preamble.sayCode here calm .command rfl ⟨Talk.legal_of_code (by decide), rfl⟩
        (fun t₄ here calm => ?_) (fun lost t₄ here _ => wp_ret.mpr (cut lost here))
      rw [if_pos rfl]
      refine preamble.sayHeader here calm .getHeader rfl gets.header
        (fun t₅ here calm => ?_) (fun lost t₅ here _ => wp_ret.mpr (cut lost here))
      rw [if_pos rfl]
      refine preamble.hearCode here calm .permission rfl rfl
        ⟨Response.ok.code, Talk.legal_of_code (by decide), rfl⟩ (fun c t₆ may here calm => ?_)
        (fun lost t₆ here _ => wp_ret.mpr (cut lost here))
      cases may.2
      dsimp only
      rw [if_pos rfl]
      refine preamble.hearHeader here calm .size rfl rfl ⟨⟨0, pad _ [], pad _ []⟩, rfl, trivial⟩
        (fun resource t₇ _ here calm => ?_) (fun lost t₇ here _ => wp_ret.mpr (cut lost here))
      refine preamble.storage here calm _ (fun ok t₈ here calm => ?_)
      cases ok with
      | false =>
          exact preamble.sayCode here calm .decision rfl ⟨Talk.legal_of_code (by decide), trivial⟩
            (fun t₉ here _ => wp_ret.mpr (Delivery.ends_before here (Or.inr rfl)))
            (fun lost t₉ here _ => wp_ret.mpr (cut lost here))
      | true =>
          rw [if_pos rfl, archive]
          refine preamble.sayCode here calm .decision rfl
            ⟨Talk.legal_of_code (by decide), trivial⟩ (fun t₉ here calm => ?_)
            (fun lost t₉ here calm => ?_)
          · apply wp_bind
            refine wp_mono (Delivery.receives (carries_download (downloadAgenda v dir)) here calm) ?_
            intro r e received
            exact wp_ret.mpr received.ends
          · apply wp_bind
            refine wp_mono (Delivery.unheard .download (p := .decision) rfl here calm lost) ?_
            intro r e received
            exact wp_ret.mpr received.ends

end Gets

/-- The child keeps to a download of the resource. -/
theorem Serves.server_wp (serves : Serves server dir v.site)
    (gets : Gets client res_path dir v.site v.found) (bounded : v.Bounded)
    (supplies : ∀ st, server.world.Finds (dir ++ slash :: v.site.resource_name) st →
      Supplies lib lossy total (server.sender dir v.site.resource_name st) v.F) :
    Wp (endpointSem (conversation (downloadAgenda v dir)) .right lossy (Alone lib))
      (Obeys (conversation (downloadAgenda v dir)) .right) total (server.program lib)
      ⟨⟨server.world, []⟩, .command, false⟩
      (fun r e => SenderEnds .download lossy v.hash r e) := by
  have preamble : Preamble lib (downloadAgenda v dir) .right (Obeys (conversation (downloadAgenda v dir)) .right)
      server.world Unremoved := preamble_sender _ _ _
  have cut : lossy → ∀ {r : Int} {e : Endpoint (SysTape lib) Talk},
      SenderEnds .download lossy v.hash r e := fun lost _ _ => Or.inl lost
  unfold Clerk.program serveClient
  simp only [Prog.bind_eq, Prog.pure_eq]
  refine preamble.hearCode rfl (fun _ => List.not_mem_nil) .command rfl rfl
    ⟨Command.get.code, Talk.legal_of_code (by decide), rfl⟩ (fun c t₁ may here unremoved => ?_)
    (fun lost t₁ _ _ => wp_ret.mpr (cut lost))
  cases may.2
  dsimp only
  rw [if_neg (by decide), if_neg (by decide), if_pos rfl]
  unfold serveGet
  simp only [Prog.bind_eq, Prog.pure_eq]
  refine preamble.hearHeader here unremoved .getHeader rfl rfl ⟨_, gets.header⟩
    (fun resource t₂ may here unremoved => ?_) (fun lost t₂ _ _ => wp_ret.mpr (cut lost))
  have named : resource.nameStr = v.site.resource_name := may.2.1
  have placed : resource.dirStr = dir := may.2.2
  dsimp only
  rw [ResourceHeader.path, named, placed, serves.key]
  refine preamble.look here unremoved (e := .lstat _) ⟨trivial, trivial⟩
    (fun r t₃ here unremoved does => ?_)
  obtain ⟨st, rfl, kind, readable⟩ := serves.resource.found does.1
  have finds : server.world.Finds (dir ++ slash :: v.site.resource_name) st := does.1
  refine preamble.look here unremoved (e := .access _ .r) ⟨trivial, trivial⟩
    (fun ok t₄ here unremoved does => ?_)
  obtain rfl : ok = true := does.1.mpr readable
  rw [if_pos rfl, if_pos kind]
  unfold offerResource
  simp only [Prog.bind_eq, Prog.pure_eq]
  rw [named, placed]
  refine preamble.sayCode here unremoved .permission rfl ⟨Talk.legal_of_code (by decide), rfl⟩
    (fun t₅ here unremoved => ?_) (fun lost t₅ _ _ => ?_)
  · refine preamble.sayHeader here unremoved .size rfl ⟨rfl, trivial⟩ (fun t₆ here unremoved => ?_)
      (fun lost t₆ _ _ => wp_ret.mpr (cut lost))
    rw [if_pos rfl]
    refine preamble.hearCode here unremoved .decision rfl rfl
      ⟨Response.ok.code, Talk.legal_of_code (by decide), trivial⟩
      (fun c t₇ may here unremoved => ?_) (fun lost t₇ _ _ => wp_ret.mpr (cut lost))
    have among : c ∈ Talk.decision.codes := may.1
    simp only [Talk.codes, List.mem_cons, List.not_mem_nil, or_false] at among
    dsimp only
    rcases among with rfl | rfl
    · rw [if_neg (by decide), if_pos rfl]
      apply wp_bind
      refine wp_mono ((supplies st finds).sends bounded (carries_download (downloadAgenda v dir)) here
        unremoved) ?_
      rintro r e ⟨rfl | rfl, ends⟩
      · exact wp_ret.mpr ends
      · exact wp_ret.mpr ends
    · rw [if_pos rfl]
      exact wp_ret.mpr (Or.inr (Or.inl ⟨rfl, rfl⟩))
  · -- the permission was not announced, and so the size cannot be either
    refine wp_mute (Or.inl rfl) ?_
    exact wp_ret.mpr (cut lost)

end Programs

/-! ### One download -/

section Downloads

variable {v : Delivery lib} {client : Customer} {server : Clerk} {res_path dir : CStr}
  {c : Meeting lib}

theorem download_tracked {lossy total : Prop} (bounded : v.Bounded)
    (free : v.found.node v.site.destination = none)
    (gets : Gets client res_path dir v.site v.found) (serves : Serves server dir v.site)
    (supplies : ∀ st, server.world.Finds (dir ++ slash :: v.site.resource_name) st →
      Supplies lib lossy total (server.sender dir v.site.resource_name st) v.F) :
    Pair.Tracked (conversation (downloadAgenda v dir)) lossy (Alone lib) (Alone lib)
      (v.guard (conversation (downloadAgenda v dir)) .left)
      (Obeys (conversation (downloadAgenda v dir)) .right) True total
      (fun _ e => v.ReceiverEnds .download lossy e)
      (fun r e => SenderEnds .download lossy v.hash r e) (session lib client server)
      .command .command where
  left := gets.client_wp free
  right := serves.server_wp gets bounded supplies
  compat := Or.inl ⟨rfl, rfl⟩

/-- In every state of a download the files of the client are as a delivery may leave them. -/
theorem download_stage {lossy total : Prop} (bounded : v.Bounded)
    (free : v.found.node v.site.destination = none)
    (gets : Gets client res_path dir v.site v.found) (serves : Serves server dir v.site)
    (supplies : ∀ st, server.world.Finds (dir ++ slash :: v.site.resource_name) st →
      Supplies lib lossy total (server.sender dir v.site.resource_name st) v.F)
    (run : Upload.Reach lib lossy (session lib client server) c) : v.Stage c.leftTape := by
  obtain ⟨p, q, tracked, _, _⟩ := Pair.track (fun _ _ guard => guard.1) (fun _ _ obeys => obeys)
    (download_tracked bounded free gets serves supplies) run
  have here : v.Stage (c.leftEnd p).2.tape :=
    tracked.left.holds (I := fun e => v.Stage e.tape) (fun _ _ guard => guard.2.1)
      (fun _ _ ends => ends.1)
  exact here

/-- A download whose connection stays up ends, however the two sides take turns: both return, the server
    with `0`, and the client has no space, with its files as they were, or has the archive. -/
theorem download_settled (bounded : v.Bounded) (intact : v.Intact)
    (free : v.found.node v.site.destination = none)
    (gets : Gets client res_path dir v.site v.found) (serves : Serves server dir v.site)
    (packs : ∀ st, server.world.Finds (dir ++ slash :: v.site.resource_name) st →
      Packs lib (server.sender dir v.site.resource_name st) v.F) :
    Ends lib (session lib client server) ∧
      ∀ c, Upload.Reach lib False (session lib client server) c →
        (∀ c', ¬ Pair.Step False (Alone lib) (Alone lib) c c') →
        (∀ path dir, (⟨.loc (.zipExtract path dir), false⟩ : SysEvent lib) ∉ c.leftTape.log) →
        (∃ a, c.left = .ret a) ∧ c.right = .ret 0 ∧
          (c.leftTape.world = v.before ∨ Unloaded lib v.site v.F v.found c.leftTape.world.fs) := by
  have tracked := download_tracked bounded free gets serves (fun st finds => (packs st finds).supplies)
  obtain ⟨ends, returns⟩ := Pair.settles (fun _ _ guard => guard.1) (fun _ _ obeys => obeys) trivial
    trivial id (fun _ _ ends => ends.quiet (fun _ _ => rfl)) (fun _ _ ends => ends.quiet (fun _ _ => rfl))
    tracked rfl rfl
  refine ⟨ends, ?_⟩
  intro c run stuck extracts
  obtain ⟨a, b, p, left, right, received, sent⟩ := returns c run stuck
  obtain ⟨rfl, arrived⟩ := v.settled (fun _ _ => Talk.download.inj) (fun _ => Talk.noConfusion) intact
    sent received rfl extracts
  exact ⟨⟨a, left⟩, right, arrived⟩

/-- A download of `F` to the site in some process, and what it leaves when it is cut. -/
def Retrieval (lib : Lib) (site : Site) (F : List UInt8) (fs fs' : Store Name UInt8) : Prop :=
  ∃ client server res_path dir mem terminated,
    Gets client res_path dir (site.on mem terminated) fs ∧ Serves server dir site ∧
    (∀ st, server.world.Finds (dir ++ slash :: site.resource_name) st →
      Yields lib (server.sender dir site.resource_name st) F) ∧
    fs.node site.destination = none ∧
    ∃ c, Upload.Reach lib True (session lib client server) c ∧ c.leftTape.world.fs = fs'

variable {site : Site} {F : List UInt8} {fs fs' : Store Name UInt8}

/-- A download leaves sane files, wherever it is cut. -/
theorem Sane.retrieval (sane : Sane lib site F fs) (small : F.length < 2 ^ 31)
    (avoids : site.Avoids lib (lib.md5.digest F)) (retrieval : Retrieval lib site F fs fs') :
    Sane lib site F fs' := by
  obtain ⟨client, server, res_path, dir, mem, terminated, gets, serves, yields, free, c, run, rfl⟩ :=
    retrieval
  have there := sane.on mem terminated
  have serves' : Serves server dir (site.on mem terminated) := ⟨serves.key, serves.resource⟩
  have stage : (there.delivery small avoids).Stage c.leftTape :=
    download_stage (there.deliverable small avoids) free gets serves'
      (fun st finds => (yields st finds).supplies) run
  exact sane.stage_on small avoids stage

theorem Sane.retrievals (sane : Sane lib site F fs) (small : F.length < 2 ^ 31)
    (avoids : site.Avoids lib (lib.md5.digest F))
    (history : Relation.ReflTransGen (Retrieval lib site F) fs fs') : Sane lib site F fs' := by
  induction history with
  | refl => exact sane
  | tail _ last ih => exact ih.retrieval small avoids last

end Downloads

/-! ### A download that is cut, and the one after it -/

/-- The memory of the client. -/
def getterStack : Stack :=
  { Stack.zeros [] with ckpt_path := zeros _, padding := zeros _ }

/-- The path of the file is split there. -/
theorem getterStack_split : ∃ name buffer, parseResourcePath [slash, 115, slash, 97]
      getterStack.resource_name getterStack.resource_dir = some (true, name, buffer) ∧
    getterStack.nameRead name = smallSite.resource_name ∧
    getterStack.dirRead buffer = [slash, 115] :=
  ⟨_, _, rfl, by decide +kernel, by decide +kernel⟩

/-- The server's file `/s/a` is to be got into `/d`. -/
def getter (fs : Store Name UInt8) : Customer where
  stack := getterStack
  ckpt_path := smallSite.ckpt_path
  K := smallSite.K
  operation := GET_OPERATION
  res_path := some [slash, 115, slash, 97]
  des_path := some smallSite.resource_dir
  world := ⟨fs, smallSite.cwd⟩

/-- The child of the server that has it. -/
def keeper : Clerk where
  mem := smallSite.mem
  ckpt_path := [slash, 99]
  K := smallSite.K
  world := smallSender.world

theorem getter_gets (fs : Store Name UInt8) :
    Gets (getter fs) [slash, 115, slash, 97] [slash, 115] smallSite fs where
  operation := rfl
  source := rfl
  target := rfl
  key := rfl
  memory := rfl
  checkpoints := rfl
  world := rfl
  split := getterStack_split
  name_fits := by decide
  dir_fits := by decide
  dir_clean := by decide

theorem keeper_file :
    keeper.world.fs.node (keeper.world.loc [slash, 115, slash, 97]) = some (.file 0) := by
  decide +kernel

theorem keeper_serves : Serves keeper [slash, 115] smallSite where
  key := rfl
  resource := Or.inl ⟨0, keeper_file⟩

theorem keeper_packs (st : Stat) (finds : keeper.world.Finds [slash, 115, slash, 97] st) :
    Packs reference (keeper.sender [slash, 115] smallSite.resource_name st) smallZip := by
  have content : (keeper.world.fs.data 0).length = 2 := by decide +kernel
  have same := (statOf_file keeper_file).mp finds
  rw [content] at same
  cases same
  have packable : Packable (keeper.sender [slash, 115] smallSite.resource_name ⟨.reg, 2⟩) [104, 105] :=
    ⟨packable_small.home, packable_small.dir, packable_small.regular, packable_small.resource,
      packable_small.apart, packable_small.room⟩
  exact packable.packs

/-- A download of the file as the script has it. -/
def getRun (script : List (Side × Pair.Move Fate)) (fs : Store Name UInt8) : Meeting reference :=
  Pair.play (machine reference False).onTape (machine reference False).onTape script
    (session reference (getter fs) keeper)

/-- The download is cut behind its only packet. -/
@[irreducible] def cutDownload : Meeting reference :=
  getRun (turns .left 6 ++ turns .right 20 ++ turns .left 20 ++ turns .right 40 ++ turns .left 9 ++
    turns .right 20 ++ turns .left 18) smallStore

/-- The download after it. -/
@[irreducible] def resumedDownload : Meeting reference :=
  getRun (turns .left 6 ++ turns .right 20 ++ turns .left 20 ++ turns .right 40 ++ turns .left 20 ++
    turns .right 20 ++ turns .left 20 ++ turns .right 30 ++ turns .left 40 ++ turns .right 10)
    cutDownload.leftTape.world.fs

/-- Both sides have returned, and no extraction has failed at the client. -/
def obtained (c : Meeting reference) : Bool :=
  (c.left.result.isSome && c.right.result.isSome) && !c.leftTape.log.any unextracted

/-- The first download leaves nothing at the destination; in the second both sides have returned, no
    extraction has failed, and the resource is there. -/
theorem downloads_shown : absentAt cutDownload.leftTape.world = true ∧
    (obtained resumedDownload && !absentAt resumedDownload.leftTape.world) = true := by
  rw [← Bool.and_eq_true]
  decide +kernel

theorem reach_cutDownload :
    Upload.Reach reference True (session reference (getter smallStore) keeper) cutDownload := by
  unfold cutDownload
  exact Pair.reach_play _ _ _ (fun _ _ _ => trivial) _

theorem reach_resumedDownload : Upload.Reach reference False
    (session reference (getter cutDownload.leftTape.world.fs) keeper) resumedDownload := by
  unfold resumedDownload
  refine Pair.reach_play _ _ _ ?_ _
  intro m member lost
  simp only [List.mem_append, or_assoc] at member
  have works : m.2 = .act .works := by
    rcases member with turn | turn | turn | turn | turn | turn | turn | turn | turn | turn
    all_goals exact act_of_turns turn
  rw [works] at lost
  cases lost

theorem cutDownload_retrieval :
    Retrieval reference smallSite smallZip smallStore cutDownload.leftTape.world.fs :=
  ⟨getter smallStore, keeper, _, _, smallSite.mem, smallSite.terminated, getter_gets smallStore,
    keeper_serves, fun st finds => (keeper_packs st finds).toYields, by decide +kernel, cutDownload,
    reach_cutDownload, rfl⟩

end Filerail
