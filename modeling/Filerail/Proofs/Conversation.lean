/-
Module: Filerail.Proofs.Conversation
Layer: Proofs
Purpose: What a client and the child that serves it say to each other, from the first command on, as an
  automaton. The transfer is part of it twice: in an upload the client sends, in a download the server
  does. `Agenda` says what the frames may carry beyond being legal.
Imports: Filerail.Core.Client, Filerail.Core.Server, Filerail.Logic.Session,
  Filerail.Proofs.Transfer
Main exports: Talk, Agenda, conversation, carries_upload, carries_download, path_rest,
  wp_say, wp_hear, sendfileHandler_returns, recvfileHandler_returns
-/
import Filerail.Core.Client
import Filerail.Core.Server
import Filerail.Logic.Session
import Filerail.Proofs.Transfer

namespace Filerail

open FileStore ProgramLogic

variable {lib : Lib}

/-! ### The automaton

The client is on the left. -/

/-- How far a conversation has come. -/
inductive Talk where
  | command
  | putHeader
  | admission
  | overwrite
  | getHeader
  | permission
  | size
  | decision
  | pong
  | upload (p : Phase)
  | download (p : Phase)
  | ended

/-- What the frames of a conversation may carry. -/
structure Agenda where
  upload : Terms
  download : Terms
  remark : Talk → Frame Schema.Val → Prop

namespace Talk

/-- Who sends the next frame. -/
def turn : Talk → Option Side
  | .command | .putHeader | .overwrite | .getHeader | .decision => some .left
  | .admission | .permission | .size | .pong => some .right
  | .upload p => p.turn .left
  | .download p => p.turn .right
  | .ended => none

/-- The layout of the frame that may come next. -/
def schema : Talk → Schema
  | .putHeader | .getHeader | .size => .resource
  | .upload p => p.schema
  | .download p => p.schema
  | _ => .code

/-- The commands and responses that may come next, outside the transfer. -/
def codes : Talk → List UInt8
  | .command => [Command.put.code, Command.get.code, Command.ping.code]
  | .admission => [Response.ok.code, Response.duplicateResourceName.code, Response.notFound.code,
      Response.noAccess.code, Response.insufficientSpace.code]
  | .overwrite => [Command.overwrite.code, Command.abort.code]
  | .permission => [Response.ok.code, Response.notFound.code, Response.noAccess.code,
      Response.badResource.code]
  | .decision => [Response.ok.code, Command.abort.code]
  | .pong => [Response.pong.code]
  | _ => []

/-- A frame that can be understood, outside the transfer. -/
def legal (p : Talk) : Frame Schema.Val → Prop
  | ⟨.code, c⟩ => c ∈ p.codes
  | ⟨.resource, _⟩ => p.schema = .resource
  | _ => False

/-- Which frames may come next. -/
def allowed (agenda : Agenda) : Talk → Frame Schema.Val → Prop
  | .upload p, m => p.allowed agenda.upload m
  | .download p, m => p.allowed agenda.download m
  | p, m => p.legal m ∧ agenda.remark p m

/-- Where a code leads. -/
def reply : Talk → UInt8 → Talk
  | .command, c =>
      if c = Command.put.code then .putHeader
      else if c = Command.get.code then .getHeader
      else .pong
  | .admission, c =>
      if c = Response.ok.code then .upload .hash
      else if c = Response.duplicateResourceName.code then .overwrite
      else .ended
  | .overwrite, c => if c = Command.overwrite.code then .upload .hash else .ended
  | .permission, c => if c = Response.ok.code then .size else .ended
  | .decision, c => if c = Response.ok.code then .download .hash else .ended
  | _, _ => .ended

/-- Where a frame leads. -/
def next : Talk → Frame Schema.Val → Talk
  | .upload p, m => .upload (p.next m)
  | .download p, m => .download (p.next m)
  | .putHeader, _ => .admission
  | .getHeader, _ => .permission
  | .size, _ => .decision
  | p, ⟨.code, c⟩ => p.reply c
  | p, _ => p

theorem schema_of_legal {p : Talk} {m : Frame Schema.Val} (legal : p.legal m) : m.1 = p.schema := by
  obtain ⟨k, v⟩ := m
  cases k with
  | code => cases p <;> first | rfl | exact absurd legal (by simp [Talk.legal, codes])
  | resource => exact Eq.symm legal
  | offset => exact legal.elim
  | hash => exact legal.elim
  | packet => exact legal.elim

theorem schema_of_allowed {agenda : Agenda} {p : Talk} {m : Frame Schema.Val}
    (may : p.allowed agenda m) : m.1 = p.schema := by
  cases p with
  | upload p => exact Phase.schema_of_allowed may
  | download p => exact Phase.schema_of_allowed may
  | _ => exact schema_of_legal may.1

end Talk

/-- A conversation. -/
def conversation (agenda : Agenda) : Protocol Talk Schema.Val where
  turn := Talk.turn
  allowed := Talk.allowed agenda
  next := Talk.next

theorem carries_upload (agenda : Agenda) :
    Carries (conversation agenda) Talk.upload .left agenda.upload where
  turn _ := rfl
  allowed _ _ := Iff.rfl
  next _ _ _ := rfl
  inj _ _ same := Talk.upload.inj same

theorem carries_download (agenda : Agenda) :
    Carries (conversation agenda) Talk.download .right agenda.download where
  turn _ := rfl
  allowed _ _ := Iff.rfl
  next _ _ _ := rfl
  inj _ _ same := Talk.download.inj same

/-! ### Frames in flight inside a transfer -/

section Paths

variable {P' : Type} {proto : Protocol P' Schema.Val} {put : Phase → P'} {sender side : Side}
  {terms : Terms}

/-- What one side sends inside a transfer leads on inside it. -/
theorem Carries.path (carries : Carries proto put sender terms) {p : Phase} {q : P'}
    {ms : List (Frame Schema.Val)} (path : proto.Path side (put p) ms q) :
    ∃ p', q = put p' ∧ (transferProtocol sender terms).Path side p ms p' := by
  induction ms generalizing p with
  | nil => exact ⟨p, Eq.symm path, rfl⟩
  | cons m ms ih =>
      obtain ⟨turn, allowed, onwards⟩ := path
      have may := (carries.allowed p m).mp allowed
      rw [carries.next p m may] at onwards
      obtain ⟨p', same, rest⟩ := ih onwards
      exact ⟨p', same, (carries.turn p).symm.trans turn, may, rest⟩

/-- The bytes that packets announce. -/
def payload : List (Frame Schema.Val) → UInt64
  | [] => 0
  | ⟨.packet, data⟩ :: rest => data.data_size + payload rest
  | _ :: rest => payload rest

theorem Phase.rest_inj {h h' : Hash} {pos pos' : Nat} {n m : UInt64}
    (same : Phase.rest h pos n = Phase.rest h' pos' m) : n = m := by
  by_cases none_left : n = 0
  · subst none_left
    by_contra more
    rw [rest_zero, rest_of_ne (Ne.symm more)] at same
    cases same
  · by_cases none_left' : m = 0
    · subst none_left'
      rw [rest_zero, rest_of_ne none_left] at same
      cases same
    · rw [rest_of_ne none_left, rest_of_ne none_left'] at same
      exact (Phase.data.inj same).2.2

/-- Between two heads of the packet loop there are packets in flight, and they make up the difference
    of the two counters. -/
theorem path_rest {h h' : Hash} {pos pos' : Nat} {n m : UInt64} {ms : List (Frame Schema.Val)}
    (path : (transferProtocol sender terms).Path side (Phase.rest h pos m) ms
      (Phase.rest h' pos' n)) : (∀ f ∈ ms, f.1 = .packet) ∧ m = payload ms + n := by
  induction ms generalizing pos m with
  | nil =>
      refine ⟨fun _ member => absurd member List.not_mem_nil, ?_⟩
      rw [payload, UInt64.zero_add]
      exact Phase.rest_inj path
  | cons f ms ih =>
      obtain ⟨turn, may, onwards⟩ := path
      obtain ⟨k, v⟩ := f
      by_cases none_left : m = 0
      · -- the verdict ends the conversation
        subst none_left
        rw [Phase.rest_zero] at may onwards
        cases k <;> first | exact may.elim | skip
        have ended : (transferProtocol sender terms).Path side (.done h v) ms
            (Phase.rest h' pos' n) := onwards
        have last := (Protocol.path_eq_nil ended (by simp [transferProtocol, Phase.turn])).2
        unfold Phase.rest at last
        split at last <;> cases last
      · rw [Phase.rest_of_ne none_left] at may onwards
        cases k <;> first | exact may.elim | skip
        obtain ⟨packets, difference⟩ := ih onwards
        refine ⟨?_, ?_⟩
        · intro f member
          cases member with
          | head => rfl
          | tail _ member => exact packets f member
        · show m = v.data_size + payload ms + n
          rw [UInt64.add_assoc, ← difference, UInt64.add_comm, UInt64.sub_add_cancel]

end Paths

/-! ### Sending and receiving in a conversation -/

section Rules

variable {P' α : Type} {proto : Protocol P' Schema.Val} {side : Side} {lossy total : Prop}
  {sem : Sem (Sys lib.md5.Ctx) Sys.Resp (SysTape lib)}
  {guard : Endpoint (SysTape lib) P' → Option (Act (Sys lib.md5.Ctx) Schema.Val) → Prop}

/-- A side whose connection is up says what it may. -/
theorem wp_say {agenda : Agenda} {p : Talk} (mine : p.turn = some side) {k : Schema} {v : k.Val}
    {f : Bool → P lib α} {t : SysTape lib}
    {guard : Endpoint (SysTape lib) Talk → Option (Act (Sys lib.md5.Ctx) Schema.Val) → Prop}
    {post : α → Endpoint (SysTape lib) Talk → Prop} (may : p.allowed agenda ⟨k, v⟩)
    (here : Obeys (E := Sys lib.md5.Ctx) (conversation agenda) side ⟨t, p, false⟩ (some (.send k v)) →
      guard ⟨t, p, false⟩ (some (.send k v)))
    (sent : Wp (endpointSem (conversation agenda) side lossy sem) guard total (f true)
      ⟨t.record (.send k v) true, p.next ⟨k, v⟩, false⟩ post)
    (unsent : lossy → Wp (endpointSem (conversation agenda) side lossy sem) guard total (f false)
      ⟨t.record (.send k v) false, p, true⟩ post) :
    Wp (endpointSem (conversation agenda) side lossy sem) guard total (Prog.bind (send k v) f)
      ⟨t, p, false⟩ post := by
  apply wp_send
  · exact here (Or.inr ⟨mine, may⟩)
  · intro _
    exact Or.inr ⟨mine, may⟩
  · intro _ _ _
    exact sent
  · rintro (lost | broken)
    · exact unsent lost
    · cases broken

/-- A side waits for what the other may say. -/
theorem wp_hear {agenda : Agenda} {p : Talk} (theirs : p.turn = some side.other) {k : Schema}
    (kind : p.schema = k) {f : Option k.Val → P lib α} {t : SysTape lib} {b : Bool}
    {guard : Endpoint (SysTape lib) Talk → Option (Act (Sys lib.md5.Ctx) Schema.Val) → Prop}
    {post : α → Endpoint (SysTape lib) Talk → Prop}
    (here : Obeys (E := Sys lib.md5.Ctx) (conversation agenda) side ⟨t, p, b⟩ (some (.recv k)) →
      guard ⟨t, p, b⟩ (some (.recv k)))
    (able : total → ∃ v, p.allowed agenda ⟨k, v⟩)
    (received : ∀ v, p.allowed agenda ⟨k, v⟩ →
      Wp (endpointSem (conversation agenda) side lossy sem) guard total (f (some v))
        ⟨t.record (.recv k) (some v), p.next ⟨k, v⟩, b⟩ post)
    (unreceived : lossy → Wp (endpointSem (conversation agenda) side lossy sem) guard total (f none)
      ⟨t.record (.recv k) none, p, b⟩ post) :
    Wp (endpointSem (conversation agenda) side lossy sem) guard total (Prog.bind (recv k) f)
      ⟨t, p, b⟩ post := by
  apply wp_recv
  · apply here
    exact Or.inr ⟨theirs, fun m may => (Talk.schema_of_allowed may).trans kind⟩
  · intro ask
    obtain ⟨v, may⟩ := able ask
    exact Or.inr ⟨theirs, v, may⟩
  · intro v _ may
    exact received v may
  · exact unreceived

/-- A side that has lost its connection cannot say anything any more. -/
theorem wp_mute {p : P'} {k : Schema} {v : k.Val} {f : Bool → P lib α} {t : SysTape lib}
    {post : α → Endpoint (SysTape lib) P' → Prop} (here : guard ⟨t, p, true⟩ (some (.send k v)))
    (unsent : Wp (endpointSem proto side lossy sem) guard total (f false)
      ⟨t.record (.send k v) false, p, true⟩ post) :
    Wp (endpointSem proto side lossy sem) guard total (Prog.bind (send k v) f) ⟨t, p, true⟩ post := by
  apply wp_send here
  · intro _
    exact Or.inl rfl
  · intro up
    cases up
  · intro _
    exact unsent

/-- A program that starts inside a transfer stays inside it. -/
theorem Carries.inside {put : Phase → P'} {sender : Side} {terms : Terms}
    (carries : Carries proto put sender terms) {program : P lib α} {t : SysTape lib} {p : Phase}
    {b : Bool} :
    Wp (endpointSem proto side lossy sem) (fun s _ => ∃ p, s.pos = put p) False program
      ⟨t, put p, b⟩ (fun _ s => ∃ p, s.pos = put p) := by
  refine wp_invariant (fun s => ∃ p, s.pos = put p) ⟨p, rfl⟩ ?_ (fun _ _ inside => inside)
    (fun _ _ inside => inside)
  rintro s a r s' ⟨p, here⟩ answer
  cases a with
  | loc e =>
      obtain ⟨_, _, rfl⟩ := answer
      exact ⟨p, here⟩
  | send k v =>
      rcases answer with ⟨_, _, _, may, rfl⟩ | ⟨_, _, rfl⟩
      · rw [here] at may
        exact ⟨_, (congrArg (fun q => proto.next q _) here).trans
          (carries.next p _ ((carries.allowed p _).mp may))⟩
      · exact ⟨p, here⟩
  | recv k =>
      rcases answer with ⟨_, _, _, may, rfl⟩ | ⟨_, _, rfl⟩
      · rw [here] at may
        exact ⟨_, (congrArg (fun q => proto.next q _) here).trans
          (carries.next p _ ((carries.allowed p _).mp may))⟩
      · exact ⟨p, here⟩

end Rules

/-! ### What the handlers return -/

/-- `0` or `-1` -/
def Status (r : Int) : Prop :=
  r = 0 ∨ r = -1

theorem senderCleanUp_returns (zip : Option Zip) {status : Int} (known : Status status) :
    (senderCleanUp zip status : L lib Int).Returns Status :=
  fun _ => known

theorem receiverCleanUp_status (fp : Option Stream) {status : Int} (known : Status status) :
    (receiverCleanUp fp status : L lib Int).Returns Status :=
  Prog.Returns.last (fun _ => known)

theorem verdictStatus_returns (response_type : UInt8) :
    (verdictStatus response_type : L lib Int).Returns Status := by
  unfold verdictStatus
  split
  · exact Or.inl rfl
  · split
    · exact Or.inr rfl
    · exact Prog.Returns.last (fun _ => Or.inr rfl)

theorem sendfileHandler_returns (is_server : Bool) (resource_dir resource_name : CStr)
    (stat_resource : Stat) (K : AESKeys) :
    (sendfileHandler is_server resource_dir resource_name stat_resource K : P lib Int).Returns
      Status := by
  have gaveUp : ∀ zip : Option Zip,
      ((senderCleanUp zip (-1) : L lib Int).loc (V := Schema.Val)).Returns Status :=
    fun zip => (senderCleanUp_returns zip (Or.inr rfl)).loc
  unfold sendfileHandler offerZip finishSending
  simp only [Prog.bind_eq, Prog.pure_eq]
  refine Prog.Returns.last (fun cwd => ?_)
  cases cwd with
  | none => exact Prog.Returns.last (fun _ => Or.inr rfl)
  | some current_dir =>
      refine Prog.Returns.last (fun moved => ?_)
      split
      · refine Prog.Returns.last (fun out => ?_)
        split
        · refine Prog.Returns.last (fun _ => Prog.Returns.last (fun hash => ?_))
          cases hash with
          | none => exact gaveUp _
          | some hash =>
              refine Prog.Returns.last (fun sent => ?_)
              split
              · refine Prog.Returns.last (fun command => ?_)
                cases command with
                | none => exact gaveUp _
                | some command_type =>
                    refine Prog.Returns.last (fun offset => ?_)
                    cases offset with
                    | none => exact gaveUp _
                    | some offset =>
                        refine Prog.Returns.last (fun status => ?_)
                        split
                        · exact gaveUp _
                        · refine Prog.Returns.last (fun response => ?_)
                          cases response with
                          | none => exact gaveUp _
                          | some response_type =>
                              refine (verdictStatus_returns response_type).loc.bind
                                (fun status known => Prog.Returns.last (fun removed => ?_))
                              split
                              · refine Prog.Returns.last (fun back => ?_)
                                split
                                · exact (senderCleanUp_returns _ known).loc
                                · exact gaveUp _
                              · exact gaveUp _
              · exact gaveUp _
        · exact (senderCleanUp_returns _ (Or.inl rfl)).loc
      · exact Prog.Returns.last (fun _ => Or.inr rfl)

theorem negotiate_returns (ckpt_resource_path resource_path : CStr) :
    (negotiate ckpt_resource_path resource_path :
      P lib (Option Stream × Int × Option UInt64)).Returns (fun out => Status out.2.1) := by
  have restarted : ∀ (fp : Option Stream) {status : Int}, Status status →
      (restart fp status : P lib (Option Stream × Int × Option UInt64)).Returns
        (fun out => Status out.2.1) := by
    intro fp status known
    refine Prog.Returns.last (fun sent => ?_)
    split
    · exact known
    · exact Or.inr rfl
  unfold negotiate offerResume
  simp only [Prog.bind_eq, Prog.pure_eq]
  refine Prog.Returns.last (fun found => ?_)
  cases found with
  | none => exact restarted _ (Or.inl rfl)
  | some _ =>
      refine Prog.Returns.last (fun readable => ?_)
      split
      · refine Prog.Returns.last (fun fp => ?_)
        cases fp with
        | none => exact restarted _ (Or.inr rfl)
        | some fp =>
            refine Prog.Returns.last (fun out => ?_)
            split
            · exact restarted _ (Or.inr rfl)
            · split
              · exact restarted _ (Or.inl rfl)
              · refine Prog.Returns.last (fun st => ?_)
                cases st with
                | none => exact restarted _ (Or.inr rfl)
                | some st =>
                    dsimp only
                    split
                    · exact restarted _ (Or.inl rfl)
                    · refine Prog.Returns.last (fun sent => ?_)
                      split
                      · refine Prog.Returns.last (fun response => ?_)
                        cases response with
                        | none => exact Or.inr rfl
                        | some response_type =>
                            dsimp only
                            split
                            · refine Prog.Returns.last (fun sent => ?_)
                              split
                              · exact Or.inl rfl
                              · exact Or.inr rfl
                            · split
                              · exact Or.inl rfl
                              · exact Prog.Returns.last (fun _ => Or.inl rfl)
                      · exact Or.inr rfl
      · exact Or.inr rfl

theorem finishReceiving_returns (fp : Option Stream) {status : Int} (known : Status status)
    (hash : Hash) (home name dir path ckpt : CStr) :
    (finishReceiving fp status hash home name dir path ckpt : P lib Int).Returns Status := by
  have gaveUp : ((receiverCleanUp fp (-1) : L lib Int).loc (V := Schema.Val)).Returns Status :=
    (receiverCleanUp_status fp (Or.inr rfl)).loc
  have cleaned : ((cleanFiles fp status home path ckpt : L lib Int).loc
      (V := Schema.Val)).Returns Status := by
    apply Prog.Returns.loc
    refine Prog.Returns.last (fun moved => ?_)
    split
    · refine Prog.Returns.last (fun removed => ?_)
      split
      · refine Prog.Returns.last (fun removed => ?_)
        split
        · exact receiverCleanUp_status fp known
        · exact receiverCleanUp_status fp (Or.inr rfl)
      · exact receiverCleanUp_status fp (Or.inr rfl)
    · exact receiverCleanUp_status fp (Or.inr rfl)
  refine Prog.Returns.last (fun moved => ?_)
  split
  · refine Prog.Returns.last (fun computed => ?_)
    cases computed with
    | none => exact gaveUp
    | some computed_hash =>
        dsimp only
        split
        · refine Prog.Returns.last (fun sent => ?_)
          split
          · refine Prog.Returns.last (fun extracted => ?_)
            split
            · exact cleaned
            · exact gaveUp
          · exact gaveUp
        · refine Prog.Returns.last (fun sent => ?_)
          split
          · exact cleaned
          · exact gaveUp
  · exact gaveUp

theorem recvfileHandler_returns (mem : Memory)
    (resource_name resource_dir resource_path ckpt_path : CStr) (K : AESKeys) :
    (recvfileHandler mem resource_name resource_dir resource_path ckpt_path K : P lib Int).Returns
      Status := by
  have gaveUp : ∀ fp : Option Stream,
      ((receiverCleanUp fp (-1) : L lib Int).loc (V := Schema.Val)).Returns Status :=
    fun fp => (receiverCleanUp_status fp (Or.inr rfl)).loc
  refine Prog.Returns.last (fun cwd => ?_)
  cases cwd with
  | none => exact gaveUp _
  | some current_dir =>
      refine Prog.Returns.last (fun hash => ?_)
      cases hash with
      | none => exact gaveUp _
      | some hash =>
          refine (negotiate_returns _ _).bind ?_
          rintro ⟨fp, status, offset⟩ known
          cases offset with
          | none => exact (receiverCleanUp_status fp known).loc
          | some offset =>
              refine Prog.Returns.last (fun status => ?_)
              split
              · exact gaveUp _
              · exact finishReceiving_returns fp known _ _ _ _ _ _

end Filerail
