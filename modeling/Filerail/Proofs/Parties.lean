/-
Module: Filerail.Proofs.Parties
Layer: Proofs
Purpose: The client and the child that serves it, each on a machine where any call may fail and over a
  connection that may be lost at any time. Both keep to the conversation; the handlers do so inside a
  transfer, the rest of the two programs around it. What either returns with says how a transfer it took
  part in has ended.
Imports: Filerail.Proofs.Agreement, Filerail.Proofs.Conversation, Filerail.Proofs.Names
Main exports: anyAgenda, outgoing, incoming, Courteous, Parting, runOperation_wp, serveClient_wp
-/
import Filerail.Proofs.Agreement
import Filerail.Proofs.Conversation
import Filerail.Proofs.Names

namespace Filerail

open FileStore ProgramLogic

variable {lib : Lib}

/-- Frames may carry anything. -/
def anyAgenda : Agenda where
  upload := anything
  download := anything
  remark _ _ := True

/-- The part of the conversation in which a side sends a file. -/
def outgoing : Side → Phase → Talk
  | .left => .upload
  | .right => .download

/-- The part of the conversation in which a side receives a file. -/
def incoming : Side → Phase → Talk
  | .left => .download
  | .right => .upload

/-- A position outside the two transfers. -/
def Talk.Apart : Talk → Prop
  | .upload _ => False
  | .download _ => False
  | _ => True

theorem carries_outgoing (side : Side) :
    Carries (conversation anyAgenda) (outgoing side) side anything := by
  cases side with
  | left => exact carries_upload anyAgenda
  | right => exact carries_download anyAgenda

theorem outgoing_ne_incoming (side : Side) (p q : Phase) : outgoing side p ≠ incoming side q := by
  cases side <;> simp [outgoing, incoming]

theorem Talk.Apart.ne_outgoing {p : Talk} (apart : p.Apart) (side : Side) (q : Phase) :
    p ≠ outgoing side q := by
  rintro rfl
  cases side <;> exact apart

theorem Talk.Apart.ne_incoming {p : Talk} (apart : p.Apart) (side : Side) (q : Phase) :
    p ≠ incoming side q := by
  rintro rfl
  cases side <;> exact apart

/-- A loop variable agrees with the bytes the conversation still expects, and the branches the code
    labels as a violation of the protocol are never taken. -/
def Observed (s : Endpoint (SysTape lib) Talk) : Option (Act (Sys lib.md5.Ctx) Schema.Val) → Prop
  | some (.loc .protocolNotFollowed) => False
  | some (.loc (.remaining n)) =>
      ∃ h pos, s.pos = .upload (Phase.rest h pos n) ∨ s.pos = .download (Phase.rest h pos n)
  | _ => True

/-- What either program keeps to whatever happens on its machine. -/
def Courteous (side : Side) (s : Endpoint (SysTape lib) Talk)
    (a : Option (Act (Sys lib.md5.Ctx) Schema.Val)) : Prop :=
  Obeys (conversation anyAgenda) side s a ∧ Observed s a ∧ Vouches (incoming side) s a

/-- How either program returns: with `0` after a file it sent only if the other side answered OK, and
    after a file it received and found right only if it extracted it. -/
def Parting (side : Side) (r : Int) (s : Endpoint (SysTape lib) Talk) : Prop :=
  (∀ p, s.pos = outgoing side p → p = .hash ∨ (r = 0 → ∃ h, p = .done h Response.ok.code)) ∧
    (r = 0 → ∀ h, s.pos = incoming side (.done h Response.ok.code) →
      ∃ path dir, (⟨.loc (.zipExtract path dir), true⟩ : SysEvent lib) ∈ s.tape.log)

theorem parting_apart {side : Side} {r : Int} {s : Endpoint (SysTape lib) Talk}
    (apart : s.pos.Apart) : Parting side r s :=
  ⟨fun p same => absurd same (apart.ne_outgoing side p),
    fun _ h same => absurd same (apart.ne_incoming side (.done h Response.ok.code))⟩

/-! ### The handlers inside the conversation -/

section Handlers

variable {s : Endpoint (SysTape lib) Talk} {a : Option (Act (Sys lib.md5.Ctx) Schema.Val)}
  {t : SysTape lib} {side : Side}

theorem Conforms.observed {put : Phase → Talk} (either : put = .upload ∨ put = .download)
    (conforms : Conforms (conversation anyAgenda) put side s a) : Observed s a := by
  have watched := conforms.2
  unfold Observed
  split
  · exact watched
  · obtain ⟨h, pos, here⟩ := watched
    rcases either with rfl | rfl
    · exact ⟨h, pos, Or.inl here⟩
    · exact ⟨h, pos, Or.inr here⟩
  · trivial

theorem outgoing_either (side : Side) : outgoing side = .upload ∨ outgoing side = .download := by
  cases side with
  | left => exact Or.inl rfl
  | right => exact Or.inr rfl

theorem courteous_sending (conforms : Conforms (conversation anyAgenda) (outgoing side) side s a)
    (inside : ∃ p, s.pos = outgoing side p) : Courteous side s a := by
  refine ⟨conforms.1, conforms.observed (outgoing_either side), ?_⟩
  obtain ⟨p, here⟩ := inside
  unfold Vouches
  split
  · intro h same
    exact absurd (here.symm.trans same) (outgoing_ne_incoming side p _)
  · trivial

/-- The sending handler, on either side. -/
theorem sendfileHandler_parting (side : Side) (is_server : Bool) (resource_dir resource_name : CStr)
    (st : Stat) (K : AESKeys) (unremoved : Unremoved t.log) :
    Wp (endpointSem (conversation anyAgenda) side True (Unreliable lib)) (Courteous side) False
      (sendfileHandler is_server resource_dir resource_name st K) ⟨t, outgoing side .hash, false⟩
      (fun r s => Status r ∧ Parting side r s) := by
  have carries := carries_outgoing side
  have conforms : Wp (endpointSem (conversation anyAgenda) side True (Unreliable lib))
      (Conforms (conversation anyAgenda) (outgoing side) side) False
      (sendfileHandler is_server resource_dir resource_name st K) ⟨t, outgoing side .hash, false⟩
      (fun r s => (True ∧ s.pos = outgoing side .hash ∧ s.broken = false) ∨
        ∃ F, True ∧ Settled (outgoing side) (Excuse True True True F) (lib.md5.digest F) r s) :=
    sendfileHandler_wp (outgoing side) side carries (fun no _ => no) (fun F _ => accepts_anything K F)
      (prepare_wp shared_still unremoved (Or.inl trivial) resource_dir resource_name st)
  have handler := wp_and conforms (carries.inside (p := .hash))
  refine wp_returns (sendfileHandler_returns _ _ _ _ _) (wp_mono (wp_guard_mono handler ?_) ?_)
  · intro s a both
    exact courteous_sending both.1 both.2
  · rintro r s ⟨settled, q, inside⟩
    refine ⟨fun p here => ?_, fun _ h same => absurd (inside.symm.trans same)
      (outgoing_ne_incoming side q _)⟩
    rcases settled with ⟨_, pos, _⟩ | ⟨F, _, zero, _⟩
    · exact Or.inl (carries.inj (here.symm.trans pos))
    · exact Or.inr (fun returned => ⟨_, carries.inj (here.symm.trans (zero returned))⟩)

/-- The receiving handler, on either side. -/
theorem recvfileHandler_parting (side : Side) (mem : Memory)
    (resource_name resource_dir resource_path ckpt_path : CStr) (K : AESKeys) :
    Wp (endpointSem (conversation anyAgenda) side True (Unreliable lib)) (Courteous side) False
      (recvfileHandler mem resource_name resource_dir resource_path ckpt_path K)
      ⟨t, incoming side .hash, false⟩ (fun r s => Status r ∧ Parting side r s) := by
  have either : incoming side = .upload ∨ incoming side = .download := by
    cases side with
    | left => exact Or.inr rfl
    | right => exact Or.inl rfl
  have handler : Wp (endpointSem (conversation anyAgenda) side True (Unreliable lib))
      (fun s a => Behaves (conversation anyAgenda) (incoming side) side s a ∧
        ∃ p, s.pos = incoming side p) False
      (recvfileHandler mem resource_name resource_dir resource_path ckpt_path K)
      ⟨t, incoming side .hash, false⟩
      (fun r s => Unpacked (incoming side) r s ∧ ∃ p, s.pos = incoming side p) := by
    cases side with
    | left =>
        exact wp_and (recvfileHandler_conforms Talk.download .right (carries_download anyAgenda)
          (steady_still (fun _ => True)) trivial trivial mem resource_name resource_dir resource_path
          ckpt_path K (fun _ _ _ _ _ _ _ _ _ => trivial))
          (carries_download anyAgenda).inside
    | right =>
        exact wp_and (recvfileHandler_conforms Talk.upload .left (carries_upload anyAgenda)
          (steady_still (fun _ => True)) trivial trivial mem resource_name resource_dir resource_path
          ckpt_path K (fun _ _ _ _ _ _ _ _ _ => trivial))
          (carries_upload anyAgenda).inside
  refine wp_returns (recvfileHandler_returns _ _ _ _ _ _) (wp_mono (wp_guard_mono handler ?_) ?_)
  · rintro s a ⟨behaves, _⟩
    exact ⟨behaves.1.1, behaves.1.observed either, behaves.2⟩
  · rintro r s ⟨unpacked, q, inside⟩
    refine ⟨fun p here => absurd (here.symm.trans inside) (outgoing_ne_incoming side p q), ?_⟩
    intro zero h same
    rcases unpacked with failed | extracted
    · rw [zero] at failed
      cases failed
    · exact extracted h same

/-- A side that could not announce the transfer waits for a hash that never comes. -/
theorem recvfileHandler_unheard {p : Talk} (apart : p.Apart) (mine : p.turn = some side) (mem : Memory)
    (resource_name resource_dir resource_path ckpt_path : CStr) (K : AESKeys) :
    Wp (endpointSem (conversation anyAgenda) side True (Unreliable lib)) (Courteous side) False
      (recvfileHandler mem resource_name resource_dir resource_path ckpt_path K) ⟨t, p, true⟩
      (fun _ s => s.pos.Apart) := by
  have gaveUp : ∀ t : SysTape lib,
      Wp (endpointSem (conversation anyAgenda) side True (Unreliable lib)) (Courteous side) False
        (receiverCleanUp none (-1)).loc ⟨t, p, true⟩ (fun _ s => s.pos.Apart) := by
    intro t
    exact wp_ret.mpr apart
  unfold recvfileHandler
  simp only [Prog.bind_eq]
  refine wp_call_bind ⟨trivial, trivial, trivial⟩ False.elim (fun cwd w' _ => ?_)
  cases cwd with
  | none => exact gaveUp _
  | some current_dir =>
      refine wp_recv ⟨Or.inl ⟨mine, rfl⟩, trivial, trivial⟩ False.elim ?_ (fun _ => gaveUp _)
      intro v theirs _
      exact absurd (Option.some.inj (mine.symm.trans theirs)) (Side.ne_other side)

end Handlers

/-! ### Around the transfer -/

section Steps

variable {α : Type} {side : Side} {t : SysTape lib} {p : Talk}
  {post : α → Endpoint (SysTape lib) Talk → Prop}

/-- While an archive may still be made, nothing has been removed. -/
theorem steady_unremoved : Steady (still : SysEnv lib) Unremoved (fun _ => True) where
  env_refl _ _ := rfl
  keeps _ _ _ _ _ _ := trivial
  grows log a r unremoved calm := by
    refine unremoved.cons (fun path same => ?_) r
    rw [same] at calm
    exact calm

theorem wp_ask (unremoved : Unremoved t.log) {e : Sys lib.md5.Ctx} (reads : Reads e)
    (unwatched : Unwatched (some e)) {f : e.Resp → P lib α} {b : Bool}
    (next : ∀ r t', Unremoved t'.log →
      Wp (endpointSem (conversation anyAgenda) side True (Unreliable lib)) (Courteous side) False
        (f r) ⟨t', p, b⟩ post) :
    Wp (endpointSem (conversation anyAgenda) side True (Unreliable lib)) (Courteous side) False
      (Prog.bind (Prog.loc (sys e)) f) ⟨t, p, b⟩ post := by
  refine wp_calm_call steady_unremoved unremoved trivial reads ⟨trivial, ?_, trivial⟩
    (fun r t' unremoved _ _ => next r t' unremoved)
  cases e <;> trivial

/-- What is said outside the transfer. -/
theorem wp_tell (apart : p.Apart) (mine : p.turn = some side) {k : Schema} {v : k.Val}
    (legal : p.legal ⟨k, v⟩) {f : Bool → P lib α} (unremoved : Unremoved t.log)
    (sent : ∀ t', Unremoved t'.log →
      Wp (endpointSem (conversation anyAgenda) side True (Unreliable lib)) (Courteous side) False
        (f true) ⟨t', p.next ⟨k, v⟩, false⟩ post)
    (unsent : ∀ t', Unremoved t'.log →
      Wp (endpointSem (conversation anyAgenda) side True (Unreliable lib)) (Courteous side) False
        (f false) ⟨t', p, true⟩ post) :
    Wp (endpointSem (conversation anyAgenda) side True (Unreliable lib)) (Courteous side) False
      (Prog.bind (send k v) f) ⟨t, p, false⟩ post := by
  have may : p.allowed anyAgenda ⟨k, v⟩ := by
    cases p <;> first | exact apart.elim | exact ⟨legal, trivial⟩
  refine wp_say mine may (fun obeys => ⟨obeys, trivial, ?_⟩) ?_ (fun _ => ?_)
  · unfold Vouches
    split
    · intro h same
      exact absurd same (apart.ne_incoming side _)
    · trivial
  · exact sent _ (unremoved.cons (a := .send k v) (by simp) true)
  · exact unsent _ (unremoved.cons (a := .send k v) (by simp) false)

/-- A command or a response. -/
theorem wp_tell_code (p : Talk) (apart : p.Apart) (mine : p.turn = some side) {c : UInt8}
    (among : c ∈ p.codes) {f : Bool → P lib α} (unremoved : Unremoved t.log)
    (sent : ∀ t', Unremoved t'.log →
      Wp (endpointSem (conversation anyAgenda) side True (Unreliable lib)) (Courteous side) False
        (f true) ⟨t', p.next ⟨.code, c⟩, false⟩ post)
    (unsent : ∀ t', Unremoved t'.log →
      Wp (endpointSem (conversation anyAgenda) side True (Unreliable lib)) (Courteous side) False
        (f false) ⟨t', p, true⟩ post) :
    Wp (endpointSem (conversation anyAgenda) side True (Unreliable lib)) (Courteous side) False
      (Prog.bind (send .code c) f) ⟨t, p, false⟩ post :=
  wp_tell (k := .code) (v := c) apart mine among unremoved sent unsent

/-- A resource header. -/
theorem wp_tell_header (p : Talk) (apart : p.Apart) (mine : p.turn = some side)
    (kind : p.schema = .resource) {r : ResourceHeader} {f : Bool → P lib α}
    (unremoved : Unremoved t.log)
    (sent : ∀ t', Unremoved t'.log →
      Wp (endpointSem (conversation anyAgenda) side True (Unreliable lib)) (Courteous side) False
        (f true) ⟨t', p.next ⟨.resource, r⟩, false⟩ post)
    (unsent : ∀ t', Unremoved t'.log →
      Wp (endpointSem (conversation anyAgenda) side True (Unreliable lib)) (Courteous side) False
        (f false) ⟨t', p, true⟩ post) :
    Wp (endpointSem (conversation anyAgenda) side True (Unreliable lib)) (Courteous side) False
      (Prog.bind (send .resource r) f) ⟨t, p, false⟩ post :=
  wp_tell (k := .resource) (v := r) apart mine kind unremoved sent unsent

/-- What is heard outside the transfer. -/
theorem wp_listen (apart : p.Apart) (theirs : p.turn = some side.other) {k : Schema}
    (kind : p.schema = k) {f : Option k.Val → P lib α} {b : Bool} (unremoved : Unremoved t.log)
    (received : ∀ v t', p.legal ⟨k, v⟩ → Unremoved t'.log →
      Wp (endpointSem (conversation anyAgenda) side True (Unreliable lib)) (Courteous side) False
        (f (some v)) ⟨t', p.next ⟨k, v⟩, b⟩ post)
    (unreceived : ∀ t', Unremoved t'.log →
      Wp (endpointSem (conversation anyAgenda) side True (Unreliable lib)) (Courteous side) False
        (f none) ⟨t', p, b⟩ post) :
    Wp (endpointSem (conversation anyAgenda) side True (Unreliable lib)) (Courteous side) False
      (Prog.bind (recv k) f) ⟨t, p, b⟩ post := by
  refine wp_hear theirs kind (fun obeys => ⟨obeys, trivial, trivial⟩) False.elim
    (fun v may => ?_) (fun _ => ?_)
  · refine received v _ ?_ (unremoved.cons (a := .recv k) (by simp) (some v))
    cases p <;> first | exact apart.elim | exact may.1
  · exact unreceived _ (unremoved.cons (a := .recv k) (by simp) none)

/-- The storage check is one call. -/
theorem wp_storage (unremoved : Unremoved t.log) (size : UInt64) {f : Bool → P lib α} {b : Bool}
    (next : ∀ r t', Unremoved t'.log →
      Wp (endpointSem (conversation anyAgenda) side True (Unreliable lib)) (Courteous side) False
        (f r) ⟨t', p, b⟩ post) :
    Wp (endpointSem (conversation anyAgenda) side True (Unreliable lib)) (Courteous side) False
      (Prog.bind (checkStorageSize size).loc f) ⟨t, p, b⟩ post := by
  unfold checkStorageSize
  simp only [Prog.bind_eq, Prog.pure_eq, Prog.loc_bind, Prog.bind_assoc]
  refine wp_ask unremoved (e := .statvfs [slash]) trivial trivial (fun r t' unremoved => ?_)
  cases r with
  | none => exact next _ t' unremoved
  | some out => exact next _ t' unremoved

end Steps

/-! ### The client -/

section Client

variable {t : SysTape lib}

/-- What is asked of a program of the client or the server from a position on. -/
abbrev Keeps (side : Side) (program : P lib Int) (t : SysTape lib) (p : Talk) (b : Bool) : Prop :=
  Wp (endpointSem (conversation anyAgenda) side True (Unreliable lib)) (Courteous side) False program
    ⟨t, p, b⟩ (Parting side)

theorem keeps_ret {side : Side} {r : Int} {p : Talk} {b : Bool} (apart : p.Apart) :
    Keeps side (.ret r) t p b :=
  wp_ret.mpr (parting_apart apart)

/-- A branch after a send, on the status it is to return. -/
theorem keeps_reply {side : Side} {status : Int} {p : Talk} {b : Bool} (apart : p.Apart) (ok : Bool) :
    Keeps side (if ok = true then .ret status else .ret (-1)) t p b := by
  cases ok with
  | true => exact keeps_ret apart
  | false => exact keeps_ret apart

theorem clientPing_keeps (unremoved : Unremoved t.log) :
    Keeps .left clientPing t .command false := by
  unfold clientPing
  simp only [Prog.bind_eq, Prog.pure_eq]
  refine wp_tell_code .command trivial rfl (by decide) unremoved (fun t₁ unremoved => ?_)
    (fun t₁ _ => keeps_ret trivial)
  rw [if_pos rfl]
  refine wp_listen (p := .pong) trivial rfl rfl unremoved (fun c t₂ may unremoved => ?_)
    (fun t₂ _ => keeps_ret trivial)
  obtain rfl : c = Response.pong.code := List.mem_singleton.mp may
  dsimp only
  rw [if_pos rfl]
  exact keeps_ret trivial

theorem clientPutFile_keeps (K : AESKeys) (resource_dir resource_name : CStr) (st : Stat)
    (unremoved : Unremoved t.log) :
    Keeps .left (clientPutFile K resource_dir resource_name st) t (.upload .hash) false := by
  unfold clientPutFile
  apply wp_bind
  refine wp_mono (sendfileHandler_parting .left false _ _ st K unremoved) ?_
  rintro r s ⟨status, parting⟩
  rcases status with rfl | rfl
  · exact wp_ret.mpr parting
  · exact wp_ret.mpr parting

theorem requestPut_keeps (K : AESKeys) (resource_name resource_dir des_path : CStr) (st : Stat)
    (unremoved : Unremoved t.log) :
    Keeps .left (requestPut K resource_name resource_dir des_path st) t .putHeader false := by
  unfold requestPut
  simp only [Prog.bind_eq, Prog.pure_eq]
  refine wp_tell_header .putHeader trivial rfl rfl unremoved (fun t₁ unremoved => ?_) (fun t₁ _ => keeps_ret trivial)
  rw [if_pos rfl]
  refine wp_listen (p := .admission) trivial rfl rfl unremoved (fun c t₂ may unremoved => ?_)
    (fun t₂ _ => keeps_ret trivial)
  simp only [Talk.legal, Talk.codes, List.mem_cons, List.not_mem_nil, or_false] at may
  dsimp only
  rcases may with rfl | rfl | rfl | rfl | rfl
  · rw [if_neg (by decide), if_neg (by decide), if_neg (by decide), if_neg (by decide), if_pos rfl]
    exact clientPutFile_keeps K _ _ st unremoved
  · rw [if_neg (by decide), if_pos rfl]
    unfold wantsOverwrite
    simp only [Prog.bind_eq, Prog.pure_eq, Prog.loc_bind, Prog.bind_assoc]
    refine wp_ask unremoved (e := .scanf) trivial trivial (fun option t₃ unremoved => ?_)
    rw [Prog.loc_ret, Prog.ret_bind]
    split
    · refine wp_tell_code .overwrite trivial rfl (by decide) unremoved (fun t₄ unremoved => ?_)
        (fun t₄ _ => keeps_ret trivial)
      rw [if_pos rfl]
      exact clientPutFile_keeps K _ _ st unremoved
    · exact wp_tell_code .overwrite trivial rfl (by decide) unremoved
        (fun t₄ _ => keeps_reply (p := .ended) trivial true)
        (fun t₄ _ => keeps_reply (p := .overwrite) trivial false)
  · rw [if_neg (by decide), if_neg (by decide), if_pos rfl]
    exact keeps_ret trivial
  · rw [if_pos rfl]
    exact keeps_ret trivial
  · rw [if_neg (by decide), if_neg (by decide), if_neg (by decide), if_pos rfl]
    exact keeps_ret trivial

theorem clientPut_keeps (K : AESKeys) (stack : Stack) (res_path des_path : CStr)
    (unremoved : Unremoved t.log) :
    Keeps .left (clientPut K stack res_path des_path) t .command false := by
  unfold clientPut
  simp only [Prog.bind_eq, Prog.pure_eq]
  refine wp_ask unremoved (e := .lstat res_path) trivial trivial (fun found t₁ unremoved => ?_)
  cases found with
  | none => exact keeps_ret trivial
  | some st =>
      refine wp_ask unremoved (e := .access res_path .r) trivial trivial
        (fun readable t₂ unremoved => ?_)
      cases readable with
      | false => exact keeps_ret trivial
      | true =>
          rw [if_pos rfl]
          split
          · refine wp_tell_code .command trivial rfl (by decide) unremoved (fun t₃ unremoved => ?_)
              (fun t₃ _ => keeps_ret trivial)
            rw [if_pos rfl]
            obtain ⟨parsed, name, dir, split, _⟩ :=
              parseResourcePath_cases res_path stack.resource_name stack.resource_dir
            rw [split]
            cases parsed with
            | true => exact requestPut_keeps K _ _ _ st unremoved
            | false => exact keeps_ret trivial
          · exact keeps_ret trivial

theorem requestGet_keeps (mem : Memory) (ckpt_path : CStr) (K : AESKeys)
    (resource_name resource_dir des_path : CStr) (unremoved : Unremoved t.log) :
    Keeps .left (requestGet mem ckpt_path K resource_name resource_dir des_path) t .command false := by
  unfold requestGet
  simp only [Prog.bind_eq, Prog.pure_eq]
  refine wp_tell_code .command trivial rfl (by decide) unremoved (fun t₁ unremoved => ?_)
    (fun t₁ _ => keeps_ret trivial)
  rw [if_pos rfl]
  refine wp_tell_header .getHeader trivial rfl rfl unremoved (fun t₂ unremoved => ?_)
    (fun t₂ _ => keeps_ret trivial)
  rw [if_pos rfl]
  refine wp_listen (p := .permission) trivial rfl rfl unremoved (fun c t₃ may unremoved => ?_)
    (fun t₃ _ => keeps_ret trivial)
  simp only [Talk.legal, Talk.codes, List.mem_cons, List.not_mem_nil, or_false] at may
  dsimp only
  rcases may with rfl | rfl | rfl | rfl
  · rw [if_pos rfl]
    refine wp_listen (p := .size) trivial rfl rfl unremoved (fun resource t₄ _ unremoved => ?_)
      (fun t₄ _ => keeps_ret trivial)
    refine wp_storage unremoved _ (fun feasible t₅ unremoved => ?_)
    cases feasible with
    | false =>
        exact wp_tell_code .decision trivial rfl (by decide) unremoved
          (fun t₆ _ => keeps_reply (p := .ended) trivial true)
          (fun t₆ _ => keeps_reply (p := .decision) trivial false)
    | true =>
        rw [if_pos rfl]
        refine wp_tell_code .decision trivial rfl (by decide) unremoved (fun t₆ _ => ?_)
          (fun t₆ _ => ?_)
        · apply wp_bind
          refine wp_mono (recvfileHandler_parting .left _ _ _ _ _ K) ?_
          rintro r s ⟨status, parting⟩
          rcases status with rfl | rfl
          · exact wp_ret.mpr parting
          · exact wp_ret.mpr parting
        · apply wp_bind
          refine wp_mono (recvfileHandler_unheard (p := .decision) trivial rfl _ _ _ _ _ K) ?_
          intro r s apart
          exact wp_ret.mpr (parting_apart apart)
  · rw [if_neg (by decide), if_pos rfl]
    exact keeps_ret trivial
  · rw [if_neg (by decide), if_neg (by decide), if_pos rfl]
    exact keeps_ret trivial
  · rw [if_neg (by decide), if_neg (by decide), if_neg (by decide), if_pos rfl]
    exact keeps_ret trivial

theorem prepareGet_keeps (mem : Memory) (ckpt_path : CStr) (K : AESKeys)
    (resource_name resource_dir des_path : CStr) (unremoved : Unremoved t.log) :
    Keeps .left (prepareGet mem ckpt_path K resource_name resource_dir des_path) t .command false := by
  unfold prepareGet
  simp only [Prog.bind_eq, Prog.pure_eq]
  refine wp_ask unremoved (e := .lstat _) trivial trivial (fun found t₁ unremoved => ?_)
  cases found with
  | some _ =>
      unfold wantsOverwrite
      simp only [Prog.bind_eq, Prog.pure_eq, Prog.loc_bind, Prog.bind_assoc]
      refine wp_ask unremoved (e := .scanf) trivial trivial (fun option t₂ unremoved => ?_)
      rw [Prog.loc_ret, Prog.ret_bind]
      split
      · refine wp_ask unremoved (e := .access _ .w) trivial trivial (fun ok t₃ unremoved => ?_)
        cases ok with
        | true => exact requestGet_keeps mem ckpt_path K _ _ _ unremoved
        | false => exact keeps_ret trivial
      · exact keeps_ret trivial
  | none =>
      refine wp_ask unremoved (e := .stat des_path) trivial trivial (fun st t₂ unremoved => ?_)
      cases st with
      | none => exact keeps_ret trivial
      | some _ =>
          refine wp_ask unremoved (e := .access des_path .w) trivial trivial
            (fun ok t₃ unremoved => ?_)
          cases ok with
          | true => exact requestGet_keeps mem ckpt_path K _ _ _ unremoved
          | false => exact keeps_ret trivial

/-- The client keeps to the conversation, whatever it is asked to do. -/
theorem runOperation_wp (stack : Stack) (ckpt_path : CStr) (K : AESKeys) (operation : CStr)
    (res_path des_path : Option CStr) (world : World) :
    Keeps .left (runOperation stack ckpt_path K operation res_path des_path : P lib Int) ⟨world, []⟩
      .command false := by
  have unremoved : Unremoved (⟨world, []⟩ : SysTape lib).log := fun _ => List.not_mem_nil
  unfold runOperation
  split
  · exact clientPing_keeps unremoved
  · split
    · split
      · exact clientPut_keeps K stack _ _ unremoved
      · exact keeps_ret trivial
    · split
      · split
        · rename_i res_path des_path
          unfold clientGet
          obtain ⟨parsed, name, dir, split, _⟩ :=
            parseResourcePath_cases res_path stack.resource_name stack.resource_dir
          rw [split]
          cases parsed with
          | true => exact prepareGet_keeps _ _ K _ _ _ unremoved
          | false => exact keeps_ret trivial
        · exact keeps_ret trivial
      · exact keeps_ret trivial

end Client

/-! ### The server -/

section Server

variable {t : SysTape lib} (mem : Memory) (ckpt_path : CStr) (K : AESKeys)

/-- A response that leads to the end. -/
theorem respond_keeps {p : Talk} (apart : p.Apart) (mine : p.turn = some .right) {response : Response}
    (among : response.code ∈ p.codes) (ends : (p.next ⟨.code, response.code⟩).Apart)
    (unremoved : Unremoved t.log) (status : Int) :
    Keeps .right (respond response status) t p false :=
  wp_tell_code p apart mine among unremoved (fun _ _ => keeps_reply ends true)
    (fun _ _ => keeps_reply apart false)

theorem serverPutFile_keeps (resource : ResourceHeader) :
    Keeps .right (serverPutFile mem ckpt_path K resource) t (.upload .hash) false := by
  unfold serverPutFile
  apply wp_bind
  refine wp_mono (recvfileHandler_parting .right mem _ _ _ _ K) ?_
  rintro r s ⟨status, parting⟩
  rcases status with rfl | rfl
  · exact wp_ret.mpr parting
  · exact wp_ret.mpr parting

/-- A removal says nothing. -/
theorem wp_removal {α : Type} {side : Side} {p : Talk} {b : Bool} (path : CStr) {f : Bool → P lib α}
    {post : α → Endpoint (SysTape lib) Talk → Prop}
    (next : ∀ ok t', Wp (endpointSem (conversation anyAgenda) side True (Unreliable lib))
      (Courteous side) False (f ok) ⟨t', p, b⟩ post) :
    Wp (endpointSem (conversation anyAgenda) side True (Unreliable lib)) (Courteous side) False
      (Prog.bind (rm path).loc f) ⟨t, p, b⟩ post := by
  apply wp_loc_bind
  refine wp_mono (wp_ordinary (rmTree_ordinary _ path) ?_) (fun ok t' _ => next ok t')
  intro t' e unwatched
  cases e with
  | none => exact ⟨trivial, trivial, trivial⟩
  | some e => cases e <;> first | exact unwatched.elim | exact ⟨trivial, trivial, trivial⟩

theorem confirmOverwrite_keeps (resource : ResourceHeader) (unremoved : Unremoved t.log) :
    Keeps .right (confirmOverwrite mem ckpt_path K resource) t .admission false := by
  unfold confirmOverwrite
  simp only [Prog.bind_eq, Prog.pure_eq]
  refine wp_tell_code .admission trivial rfl (by decide) unremoved (fun t₁ unremoved => ?_)
    (fun t₁ _ => keeps_ret trivial)
  rw [if_pos rfl]
  refine wp_listen (p := .overwrite) trivial rfl rfl unremoved (fun c t₂ may unremoved => ?_)
    (fun t₂ _ => keeps_ret trivial)
  simp only [Talk.legal, Talk.codes, List.mem_cons, List.not_mem_nil, or_false] at may
  dsimp only
  rcases may with rfl | rfl
  · rw [if_pos rfl]
    refine wp_removal _ (fun removed t₃ => ?_)
    cases removed with
    | true => exact serverPutFile_keeps mem ckpt_path K resource
    | false => exact wp_ret.mpr ⟨fun p same => Or.inl (by cases same), fun zero => by cases zero⟩
  · rw [if_neg (by decide), if_pos rfl]
    exact keeps_ret trivial

theorem servePut_keeps (unremoved : Unremoved t.log) :
    Keeps .right (servePut mem ckpt_path K) t .putHeader false := by
  unfold servePut
  simp only [Prog.bind_eq, Prog.pure_eq]
  refine wp_listen (p := .putHeader) trivial rfl rfl unremoved (fun resource t₁ _ unremoved => ?_)
    (fun t₁ _ => keeps_ret trivial)
  refine wp_storage unremoved _ (fun feasible t₂ unremoved => ?_)
  have refuse : ∀ (response : Response) (status : Int) (t : SysTape lib),
      response.code ∈ Talk.admission.codes → (Talk.admission.reply response.code).Apart →
      Unremoved t.log → Keeps .right (respond response status) t .admission false :=
    fun response status t among ends unremoved =>
      respond_keeps (p := .admission) trivial rfl among ends unremoved status
  cases feasible with
  | false => exact refuse .insufficientSpace 0 t₂ (by decide) trivial unremoved
  | true =>
      rw [if_pos rfl]
      refine wp_ask unremoved (e := .lstat _) trivial trivial (fun found t₃ unremoved => ?_)
      cases found with
      | some _ =>
          refine wp_ask unremoved (e := .access _ .w) trivial trivial (fun ok t₄ unremoved => ?_)
          cases ok with
          | true => exact confirmOverwrite_keeps mem ckpt_path K resource unremoved
          | false => exact refuse .noAccess 0 t₄ (by decide) trivial unremoved
      | none =>
          refine wp_ask unremoved (e := .stat _) trivial trivial (fun st t₄ unremoved => ?_)
          cases st with
          | none => exact refuse .notFound (-1) t₄ (by decide) trivial unremoved
          | some _ =>
              refine wp_ask unremoved (e := .access _ .w) trivial trivial
                (fun ok t₅ unremoved => ?_)
              cases ok with
              | false => exact refuse .noAccess 0 t₅ (by decide) trivial unremoved
              | true =>
                  rw [if_pos rfl]
                  refine wp_tell_code .admission trivial rfl (by decide) unremoved
                    (fun t₆ _ => ?_) (fun t₆ _ => keeps_ret trivial)
                  exact serverPutFile_keeps mem ckpt_path K resource

theorem offerResource_keeps (resource : ResourceHeader) (st : Stat) (unremoved : Unremoved t.log) :
    Keeps .right (offerResource K resource st) t .permission false := by
  unfold offerResource
  simp only [Prog.bind_eq, Prog.pure_eq]
  refine wp_tell_code .permission trivial rfl (by decide) unremoved (fun t₁ unremoved => ?_) (fun t₁ _ => ?_)
  · refine wp_tell_header .size trivial rfl rfl unremoved (fun t₂ unremoved => ?_)
      (fun t₂ _ => keeps_ret trivial)
    rw [if_pos rfl]
    refine wp_listen (p := .decision) trivial rfl rfl unremoved (fun c t₃ may unremoved => ?_)
      (fun t₃ _ => keeps_ret trivial)
    simp only [Talk.legal, Talk.codes, List.mem_cons, List.not_mem_nil, or_false] at may
    dsimp only
    rcases may with rfl | rfl
    · rw [if_neg (by decide), if_pos rfl]
      apply wp_bind
      refine wp_mono (sendfileHandler_parting .right true _ _ st K unremoved) ?_
      rintro r s ⟨status, parting⟩
      rcases status with rfl | rfl
      · exact wp_ret.mpr parting
      · exact wp_ret.mpr parting
    · rw [if_pos rfl]
      exact keeps_ret trivial
  · -- the permission was not announced, and so the size cannot be either
    refine wp_mute ⟨Or.inl rfl, trivial, trivial⟩ ?_
    exact keeps_ret trivial

theorem serveGet_keeps (unremoved : Unremoved t.log) :
    Keeps .right (serveGet K) t .getHeader false := by
  unfold serveGet
  simp only [Prog.bind_eq, Prog.pure_eq]
  refine wp_listen (p := .getHeader) trivial rfl rfl unremoved (fun resource t₁ _ unremoved => ?_)
    (fun t₁ _ => keeps_ret trivial)
  have refuse : ∀ (response : Response) (t : SysTape lib),
      response.code ∈ Talk.permission.codes → (Talk.permission.reply response.code).Apart →
      Unremoved t.log → Keeps .right (respond response 0) t .permission false :=
    fun response t among ends unremoved =>
      respond_keeps (p := .permission) trivial rfl among ends unremoved 0
  refine wp_ask unremoved (e := .lstat _) trivial trivial (fun found t₂ unremoved => ?_)
  cases found with
  | none => exact refuse .notFound t₂ (by decide) trivial unremoved
  | some st =>
      refine wp_ask unremoved (e := .access _ .r) trivial trivial (fun ok t₃ unremoved => ?_)
      cases ok with
      | false => exact refuse .noAccess t₃ (by decide) trivial unremoved
      | true =>
          rw [if_pos rfl]
          split
          · exact offerResource_keeps K resource st unremoved
          · exact refuse .badResource t₃ (by decide) trivial unremoved

/-- The child keeps to the conversation, whatever it is asked to do. -/
theorem serveClient_wp (world : World) :
    Keeps .right (serveClient mem ckpt_path K : P lib Int) ⟨world, []⟩ .command false := by
  have unremoved : Unremoved (⟨world, []⟩ : SysTape lib).log := fun _ => List.not_mem_nil
  unfold serveClient
  simp only [Prog.bind_eq, Prog.pure_eq]
  refine wp_listen (p := .command) trivial rfl rfl unremoved (fun c t₁ may unremoved => ?_)
    (fun t₁ _ => keeps_ret trivial)
  simp only [Talk.legal, Talk.codes, List.mem_cons, List.not_mem_nil, or_false] at may
  dsimp only
  rcases may with rfl | rfl | rfl
  · rw [if_pos rfl]
    exact servePut_keeps mem ckpt_path K unremoved
  · rw [if_neg (by decide), if_neg (by decide), if_pos rfl]
    exact serveGet_keeps K unremoved
  · rw [if_neg (by decide), if_pos rfl]
    exact respond_keeps (p := .pong) trivial rfl (by decide) trivial unremoved 0

end Server

end Filerail
