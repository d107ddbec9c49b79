/-
Module: Filerail.Proofs.Consent
Layer: Proofs
Purpose: On what conditions the two programs touch their files. A child of the server does so only at
  the end of one of three exchanges with its peer, the client only when the user, the local checks and
  the server have agreed. The peer may send anything at any time, and any call may fail.
Imports: Filerail.Proofs.Dialogue
Main exports: Exposed, Asks, Grant, serveClient_granted, Warrant, runOperation_warranted
-/
import Filerail.Proofs.Dialogue

namespace Filerail

open FileStore ProgramLogic

variable {lib : Lib}

/-- A machine on which any call may fail, and a peer that may do anything. -/
abbrev Exposed (lib : Lib) :
    Sem (Act (Sys lib.md5.Ctx) Schema.Val) (Act.Answer Sys.Resp) (SysTape lib) :=
  soloSem (Unreliable lib)

/-! ### What comes before -/

/-- A call that changes nothing and opens no file, or an operation of the connection other than to
    receive a hash. -/
def Asking : Act (Sys lib.md5.Ctx) Schema.Val → Prop
  | .loc (.fopen _ _) => False
  | .loc e => Reads e
  | .send _ _ => True
  | .recv k => k ≠ .hash

theorem Asking.reads {e : Sys lib.md5.Ctx} (asking : Asking (.loc e)) : Reads e := by
  cases e with
  | fopen path mode => exact asking.elim
  | _ => exact asking

section Rules

variable {Q : List (SysEvent lib) → P lib Int → Prop} {log : List (SysEvent lib)}

/-- The program reads, sends and receives until it comes to a point of `Q`. -/
abbrev Asks (Q : List (SysEvent lib) → P lib Int → Prop) (log : List (SysEvent lib))
    (program : P lib Int) : Prop :=
  program.Leads Asking Q log

theorem asks_call {e : Sys lib.md5.Ctx} (asking : Asking (.loc e)) {f : e.Resp → P lib Int}
    (next : ∀ r, Asks Q (⟨.loc e, r⟩ :: log) (f r)) :
    Asks Q log (Prog.bind (Prog.loc (sys e)) f) :=
  Or.inr ⟨asking, next⟩

theorem asks_send {k : Schema} {v : k.Val} {f : Bool → P lib Int}
    (next : ∀ r, Asks Q (⟨.send k v, r⟩ :: log) (f r)) :
    Asks Q log (Prog.bind (send k v) f) :=
  .perform trivial next

theorem asks_recv {k : Schema} (other : k ≠ .hash) {f : Option k.Val → P lib Int}
    (next : ∀ r, Asks Q (⟨.recv k, r⟩ :: log) (f r)) :
    Asks Q log (Prog.bind (recv k) f) :=
  .perform other next

/-- The code notes that the protocol was not followed, and returns. -/
theorem asks_unexpected {status : Int} :
    Asks Q log (Prog.bind (Prog.loc protocolNotFollowed) (fun _ => .ret status)) :=
  asks_call (e := .protocolNotFollowed) trivial (fun _ => trivial)

/-- The storage check, with what it was answered. -/
theorem asks_storage (resource_size : UInt64) {f : Bool → P lib Int}
    (unanswered : Asks Q (⟨.loc (.statvfs [slash]), none⟩ :: log) (f false))
    (answered : ∀ f_frsize f_bavail,
      Asks Q (⟨.loc (.statvfs [slash]), some (f_frsize, f_bavail)⟩ :: log)
        (f (decide (resource_size / f_frsize < f_bavail)))) :
    Asks Q log (Prog.bind (checkStorageSize resource_size).loc f) := by
  unfold checkStorageSize
  simp only [Prog.bind_eq, Prog.pure_eq, Prog.loc_bind, Prog.bind_assoc]
  refine asks_call (e := .statvfs [slash]) trivial (fun r => ?_)
  cases r with
  | none => exact unanswered
  | some out => exact answered out.1 out.2

theorem exposed_logs (t : SysTape lib) (a : Act (Sys lib.md5.Ctx) Schema.Val) (r : a.Answer Sys.Resp)
    (t' : SysTape lib) (answer : Exposed lib t a r t') : t'.log = ⟨a, r⟩ :: t.log :=
  solo_logs answer

/-- Asking changes nothing. -/
theorem Asking.same {t t' : SysTape lib} {a : Act (Sys lib.md5.Ctx) Schema.Val}
    {r : a.Answer Sys.Resp} (asking : Asking a) (answer : Exposed lib t a r t') :
    t'.world = t.world := by
  cases a with
  | loc e =>
      obtain ⟨_, _, rfl, answered, rfl⟩ := answer
      exact reads_same asking.reads answered
  | send k v =>
      cases (answer : t' = _)
      rfl
  | recv k =>
      cases (answer : t' = _)
      rfl

/-- A program that first asks has changed nothing, or it has come to one of its points that way. -/
theorem Asks.reach {program program' : P lib Int} {w : World} {t : SysTape lib}
    (asks : Asks Q log program)
    (run : Prog.Reach (Exposed lib) (program, ⟨w, log⟩) (program', t)) :
    t.world = w ∨ ∃ log' todo, Q log' todo ∧
      Prog.Reach (Exposed lib) (program, ⟨w, log⟩) (todo, ⟨w, log'⟩) ∧
      Prog.Reach (Exposed lib) (todo, ⟨w, log'⟩) (program', t) := by
  have keeps : ∀ (t : SysTape lib) a r t', Asking a → t.world = w → Exposed lib t a r t' →
      t'.world = w :=
    fun _ _ _ _ asking same answer => (asking.same answer).trans same
  rcases reach_leads exposed_logs keeps asks rfl run with
    ⟨_, same⟩ | ⟨todo, t₁, point, rfl, first, rest⟩
  · exact Or.inl same
  · exact Or.inr ⟨t₁.log, todo, point, first, rest⟩

end Rules

/-! ### The server -/

section Server

variable (mem : Memory) (ckpt_path : CStr) (K : AESKeys)

/-- The points at which a child begins to touch its files: the exchange before it, the last event first,
    and what it goes on to do. -/
inductive Grant : List (SysEvent lib) → P lib Int → Prop
  /-- An upload to a place where there is nothing, in a directory that can be written. -/
  | create {resource : ResourceHeader} {f_frsize f_bavail : UInt64} {stat_dir : Stat}
      (fits : resource.resource_size / f_frsize < f_bavail) :
      Grant [⟨.send .code Response.ok.code, true⟩, ⟨.loc (.access resource.dirStr .w), true⟩,
        ⟨.loc (.stat resource.dirStr), some stat_dir⟩, ⟨.loc (.lstat resource.path), none⟩,
        ⟨.loc (.statvfs [slash]), some (f_frsize, f_bavail)⟩, ⟨.recv .resource, some resource⟩,
        ⟨.recv .code, some Command.put.code⟩] (serverPutFile mem ckpt_path K resource)
  /-- An upload over what can be written, which the client was asked about. -/
  | replace {resource : ResourceHeader} {f_frsize f_bavail : UInt64} {stat_path : Stat}
      (fits : resource.resource_size / f_frsize < f_bavail) :
      Grant [⟨.recv .code, some Command.overwrite.code⟩,
        ⟨.send .code Response.duplicateResourceName.code, true⟩,
        ⟨.loc (.access resource.path .w), true⟩, ⟨.loc (.lstat resource.path), some stat_path⟩,
        ⟨.loc (.statvfs [slash]), some (f_frsize, f_bavail)⟩, ⟨.recv .resource, some resource⟩,
        ⟨.recv .code, some Command.put.code⟩]
        ((rm resource.path).loc.bind (fun removed =>
          if removed = true then serverPutFile mem ckpt_path K resource else .ret (-1)))
  /-- A download of a file or directory that can be read, whose size the client has accepted. -/
  | fetch {resource : ResourceHeader} {stat_path : Stat} {announced : Bool}
      (kind : (isFile stat_path || isDir stat_path) = true) :
      Grant [⟨.recv .code, some Response.ok.code⟩,
        ⟨.send .resource ⟨.ofNat stat_path.st_size, pad _ [], pad _ []⟩, true⟩,
        ⟨.send .code Response.ok.code, announced⟩, ⟨.loc (.access resource.path .r), true⟩,
        ⟨.loc (.lstat resource.path), some stat_path⟩, ⟨.recv .resource, some resource⟩,
        ⟨.recv .code, some Command.get.code⟩]
        ((sendfileHandler true resource.dirStr resource.nameStr stat_path K).bind (fun status =>
          .ret (if status = -1 then -1 else if announced = true then 0 else -1)))

variable {mem ckpt_path K} {w : World} {log : List (SysEvent lib)}

theorem respond_leads {Q : List (SysEvent lib) → P lib Int → Prop} (response : Response)
    (exit_status : Int) : Asks Q log (respond response exit_status) := by
  refine asks_send (fun sent => ?_)
  cases sent <;> trivial

theorem confirmOverwrite_leads {resource : ResourceHeader} {f_frsize f_bavail : UInt64}
    {stat_path : Stat} (fits : resource.resource_size / f_frsize < f_bavail) :
    Asks (Grant mem ckpt_path K) [⟨.loc (.access resource.path .w), true⟩,
        ⟨.loc (.lstat resource.path), some stat_path⟩,
        ⟨.loc (.statvfs [slash]), some (f_frsize, f_bavail)⟩, ⟨.recv .resource, some resource⟩,
        ⟨.recv .code, some Command.put.code⟩] (confirmOverwrite mem ckpt_path K resource : P lib Int) := by
  unfold confirmOverwrite
  simp only [Prog.bind_eq, Prog.pure_eq]
  refine asks_send (fun asked => ?_)
  cases asked with
  | false => trivial
  | true =>
      rw [if_pos rfl]
      refine asks_recv (by decide) (fun command => ?_)
      cases command with
      | none => trivial
      | some command_type =>
          dsimp only
          split
          · rename_i overwrite
            subst overwrite
            exact .here (.replace fits)
          · split
            · trivial
            · exact asks_unexpected

theorem servePut_leads :
    Asks (Grant mem ckpt_path K) [⟨.recv .code, some Command.put.code⟩]
      (servePut mem ckpt_path K : P lib Int) := by
  unfold servePut
  simp only [Prog.bind_eq, Prog.pure_eq]
  refine asks_recv (by decide) (fun header => ?_)
  cases header with
  | none => trivial
  | some resource =>
      refine asks_storage _ (respond_leads _ _) (fun f_frsize f_bavail => ?_)
      split
      · rename_i room
        have fits := of_decide_eq_true room
        refine asks_call (e := .lstat resource.path) trivial (fun found => ?_)
        cases found with
        | some stat_path =>
            refine asks_call (e := .access resource.path .w) trivial (fun writeable => ?_)
            cases writeable with
            | true => exact confirmOverwrite_leads fits
            | false => exact respond_leads _ _
        | none =>
            refine asks_call (e := .stat resource.dirStr) trivial (fun there => ?_)
            cases there with
            | none => exact respond_leads _ _
            | some stat_dir =>
                refine asks_call (e := .access resource.dirStr .w) trivial (fun writeable => ?_)
                cases writeable with
                | false => exact respond_leads _ _
                | true =>
                    rw [if_pos rfl]
                    refine asks_send (fun admitted => ?_)
                    cases admitted with
                    | true => exact .here (.create fits)
                    | false => trivial
      · exact respond_leads _ _

theorem offerResource_leads {resource : ResourceHeader} {stat_path : Stat}
    (kind : (isFile stat_path || isDir stat_path) = true) :
    Asks (Grant mem ckpt_path K) [⟨.loc (.access resource.path .r), true⟩,
        ⟨.loc (.lstat resource.path), some stat_path⟩, ⟨.recv .resource, some resource⟩,
        ⟨.recv .code, some Command.get.code⟩] (offerResource K resource stat_path : P lib Int) := by
  unfold offerResource
  simp only [Prog.bind_eq, Prog.pure_eq]
  refine asks_send (fun announced => asks_send (fun sized => ?_))
  cases sized with
  | false => trivial
  | true =>
      rw [if_pos rfl]
      refine asks_recv (by decide) (fun response => ?_)
      cases response with
      | none => trivial
      | some response_type =>
          dsimp only
          split
          · trivial
          · split
            · rename_i ok
              subst ok
              exact .here (.fetch kind)
            · exact asks_unexpected

theorem serveGet_leads :
    Asks (Grant mem ckpt_path K) [⟨.recv .code, some Command.get.code⟩] (serveGet K : P lib Int) := by
  unfold serveGet
  simp only [Prog.bind_eq, Prog.pure_eq]
  refine asks_recv (by decide) (fun header => ?_)
  cases header with
  | none => trivial
  | some resource =>
      refine asks_call (e := .lstat resource.path) trivial (fun found => ?_)
      cases found with
      | none => exact respond_leads _ _
      | some stat_path =>
          refine asks_call (e := .access resource.path .r) trivial (fun readable => ?_)
          cases readable with
          | false => exact respond_leads _ _
          | true =>
              rw [if_pos rfl]
              split
              · rename_i kind
                exact offerResource_leads kind
              · exact respond_leads _ _

theorem serveClient_leads :
    Asks (Grant mem ckpt_path K) [] (serveClient mem ckpt_path K : P lib Int) := by
  unfold serveClient
  simp only [Prog.bind_eq, Prog.pure_eq]
  refine asks_recv (by decide) (fun command => ?_)
  cases command with
  | none => trivial
  | some command_type =>
      dsimp only
      split
      · rename_i put
        subst put
        exact servePut_leads
      · split
        · exact respond_leads _ _
        · split
          · rename_i get
            subst get
            exact serveGet_leads
          · exact asks_unexpected

end Server

/-! ### The client -/

/-- The user has answered `Y` or `y`. -/
def Agrees (option : UInt8) : Prop :=
  option = 89 ∨ option = 121

/-- What a client has found when nothing speaks against a download into its destination: nothing is
    there and the directory can be written, or what is there can be written and the user agreed. -/
inductive Vacated (resource_path des_path : CStr) : List (SysEvent lib) → Prop
  | free {stat_dir : Stat} :
      Vacated resource_path des_path [⟨.loc (.access des_path .w), true⟩,
        ⟨.loc (.stat des_path), some stat_dir⟩, ⟨.loc (.lstat resource_path), none⟩]
  | taken {stat_path : Stat} {option : UInt8} (agrees : Agrees option) :
      Vacated resource_path des_path [⟨.loc (.access resource_path .w), true⟩,
        ⟨.loc .scanf, option⟩, ⟨.loc (.lstat resource_path), some stat_path⟩]

section Client

variable (stack : Stack) (ckpt_path : CStr) (K : AESKeys) (res_path des_path : CStr)

/-- The points at which a client begins to touch its files: the exchange before it, the last event first,
    and what it goes on to do. -/
inductive Warrant : List (SysEvent lib) → P lib Int → Prop
  /-- An upload of what can be read, to which the server agrees. -/
  | admitted {stat_path : Stat} {resource_name : NameBuffer} {resource_dir : PathBuffer}
      (kind : (isFile stat_path || isDir stat_path) = true)
      (parsed : parseResourcePath res_path stack.resource_name stack.resource_dir =
        some (true, resource_name, resource_dir)) :
      Warrant [⟨.recv .code, some Response.ok.code⟩,
        ⟨.send .resource ⟨.ofNat stat_path.st_size, pad _ (stack.nameRead resource_name),
          pad _ des_path⟩, true⟩,
        ⟨.send .code Command.put.code, true⟩, ⟨.loc (.access res_path .r), true⟩,
        ⟨.loc (.lstat res_path), some stat_path⟩]
        (clientPutFile K (stack.dirRead resource_dir) (stack.nameRead resource_name) stat_path)
  /-- An upload over what the server has, to which the user agrees. -/
  | confirmed {stat_path : Stat} {resource_name : NameBuffer} {resource_dir : PathBuffer}
      {option : UInt8} (kind : (isFile stat_path || isDir stat_path) = true)
      (parsed : parseResourcePath res_path stack.resource_name stack.resource_dir =
        some (true, resource_name, resource_dir)) (agrees : Agrees option) :
      Warrant [⟨.send .code Command.overwrite.code, true⟩, ⟨.loc .scanf, option⟩,
        ⟨.recv .code, some Response.duplicateResourceName.code⟩,
        ⟨.send .resource ⟨.ofNat stat_path.st_size, pad _ (stack.nameRead resource_name),
          pad _ des_path⟩, true⟩,
        ⟨.send .code Command.put.code, true⟩, ⟨.loc (.access res_path .r), true⟩,
        ⟨.loc (.lstat res_path), some stat_path⟩]
        (clientPutFile K (stack.dirRead resource_dir) (stack.nameRead resource_name) stat_path)
  /-- A download of what the server agrees to send and the client has room for. -/
  | offered {resource_name : NameBuffer} {resource_dir : PathBuffer} {resource : ResourceHeader}
      {f_frsize f_bavail : UInt64} {accepted : Bool} {found : List (SysEvent lib)}
      (parsed : parseResourcePath res_path stack.resource_name stack.resource_dir =
        some (true, resource_name, resource_dir))
      (vacated : Vacated (des_path ++ slash :: stack.nameRead resource_name) des_path found)
      (fits : resource.resource_size / f_frsize < f_bavail) :
      Warrant ([⟨.send .code Response.ok.code, accepted⟩,
        ⟨.loc (.statvfs [slash]), some (f_frsize, f_bavail)⟩, ⟨.recv .resource, some resource⟩,
        ⟨.recv .code, some Response.ok.code⟩,
        ⟨.send .resource ⟨0, pad _ (stack.nameRead resource_name), pad _ (stack.dirRead resource_dir)⟩,
          true⟩, ⟨.send .code Command.get.code, true⟩] ++ found)
        ((recvfileHandler stack.memory (stack.nameRead resource_name) des_path
          (des_path ++ slash :: stack.nameRead resource_name ++ dotZip) ckpt_path K).bind
          (fun status => .ret (if accepted = true ∧ status ≠ -1 then 0 else -1)))

variable {stack ckpt_path K res_path des_path} {w : World} {log : List (SysEvent lib)}

/-- The answer of the user. -/
theorem asks_wish {Q : List (SysEvent lib) → P lib Int → Prop} {f : Bool → P lib Int}
    (no : ∀ option : UInt8, Asks Q (⟨.loc .scanf, option⟩ :: log) (f false))
    (yes : ∀ option, Agrees option → Asks Q (⟨.loc .scanf, option⟩ :: log) (f true)) :
    Asks Q log (Prog.bind wantsOverwrite.loc f) := by
  unfold wantsOverwrite
  simp only [Prog.bind_eq, Prog.pure_eq, Prog.loc_bind, Prog.bind_assoc]
  refine asks_call (e := .scanf) trivial (fun option : UInt8 => ?_)
  rw [Prog.loc_ret, Prog.ret_bind]
  by_cases agrees : option = 89 ∨ option = 121
  · rw [decide_eq_true agrees]
    exact yes option agrees
  · rw [decide_eq_false agrees]
    exact no option

theorem clientPing_leads {Q : List (SysEvent lib) → P lib Int → Prop} : Asks Q log clientPing := by
  unfold clientPing
  simp only [Prog.bind_eq, Prog.pure_eq]
  refine asks_send (fun sent => ?_)
  cases sent with
  | false => trivial
  | true =>
      rw [if_pos rfl]
      refine asks_recv (by decide) (fun response => ?_)
      cases response with
      | none => trivial
      | some response_type =>
          dsimp only
          split
          · trivial
          · exact asks_unexpected

theorem requestPut_leads {stat_path : Stat} {resource_name : NameBuffer} {resource_dir : PathBuffer}
    (kind : (isFile stat_path || isDir stat_path) = true)
    (parsed : parseResourcePath res_path stack.resource_name stack.resource_dir =
      some (true, resource_name, resource_dir)) :
    Asks (Warrant stack ckpt_path K res_path des_path) [⟨.send .code Command.put.code, true⟩,
        ⟨.loc (.access res_path .r), true⟩, ⟨.loc (.lstat res_path), some stat_path⟩]
      (requestPut K (stack.nameRead resource_name) (stack.dirRead resource_dir) des_path
        stat_path : P lib Int) := by
  unfold requestPut
  simp only [Prog.bind_eq, Prog.pure_eq]
  refine asks_send (fun sent => ?_)
  cases sent with
  | false => trivial
  | true =>
      rw [if_pos rfl]
      refine asks_recv (by decide) (fun response => ?_)
      cases response with
      | none => trivial
      | some response_type =>
          dsimp only
          split
          · trivial
          · split
            · rename_i duplicate
              subst duplicate
              refine asks_wish (fun option => ?_) (fun option agrees => ?_)
              · refine asks_send (fun sent => ?_)
                cases sent <;> trivial
              · refine asks_send (fun sent => ?_)
                cases sent with
                | false => trivial
                | true => exact .here (.confirmed kind parsed agrees)
            · split
              · trivial
              · split
                · trivial
                · split
                  · rename_i ok
                    subst ok
                    exact .here (.admitted kind parsed)
                  · exact asks_unexpected

theorem clientPut_leads :
    Asks (Warrant stack ckpt_path K res_path des_path) []
      (clientPut K stack res_path des_path : P lib Int) := by
  unfold clientPut
  simp only [Prog.bind_eq, Prog.pure_eq]
  refine asks_call (e := .lstat res_path) trivial (fun found => ?_)
  cases found with
  | none => trivial
  | some stat_path =>
      refine asks_call (e := .access res_path .r) trivial (fun readable => ?_)
      cases readable with
      | false => trivial
      | true =>
          rw [if_pos rfl]
          split
          · rename_i kind
            refine asks_send (fun sent => ?_)
            cases sent with
            | false => trivial
            | true =>
                rw [if_pos rfl]
                obtain ⟨parsed, name, dir, split, _⟩ :=
                  parseResourcePath_cases res_path stack.resource_name stack.resource_dir
                rw [split]
                cases parsed with
                | true => exact requestPut_leads kind split
                | false => trivial
          · trivial

theorem requestGet_leads {resource_name : NameBuffer} {resource_dir : PathBuffer}
    {found : List (SysEvent lib)}
    (parsed : parseResourcePath res_path stack.resource_name stack.resource_dir =
      some (true, resource_name, resource_dir))
    (vacated : Vacated (des_path ++ slash :: stack.nameRead resource_name) des_path found) :
    Asks (Warrant stack ckpt_path K res_path des_path) found
      (requestGet stack.memory ckpt_path K (stack.nameRead resource_name)
        (stack.dirRead resource_dir) des_path : P lib Int) := by
  unfold requestGet
  simp only [Prog.bind_eq, Prog.pure_eq]
  refine asks_send (fun sent => ?_)
  cases sent with
  | false => trivial
  | true =>
      rw [if_pos rfl]
      refine asks_send (fun sent => ?_)
      cases sent with
      | false => trivial
      | true =>
          rw [if_pos rfl]
          refine asks_recv (by decide) (fun response => ?_)
          cases response with
          | none => trivial
          | some response_type =>
              dsimp only
              split
              · rename_i ok
                subst ok
                refine asks_recv (by decide) (fun header => ?_)
                cases header with
                | none => trivial
                | some resource =>
                    refine asks_storage _ ?_ (fun f_frsize f_bavail => ?_)
                    · refine asks_send (fun sent => ?_)
                      cases sent <;> trivial
                    · split
                      · rename_i room
                        refine asks_send (fun accepted => ?_)
                        exact .here (.offered parsed vacated (of_decide_eq_true room))
                      · refine asks_send (fun sent => ?_)
                        cases sent <;> trivial
              · split
                · trivial
                · split
                  · trivial
                  · split
                    · trivial
                    · exact asks_unexpected

theorem prepareGet_leads {resource_name : NameBuffer} {resource_dir : PathBuffer}
    (parsed : parseResourcePath res_path stack.resource_name stack.resource_dir =
      some (true, resource_name, resource_dir)) :
    Asks (Warrant stack ckpt_path K res_path des_path) []
      (prepareGet stack.memory ckpt_path K (stack.nameRead resource_name)
        (stack.dirRead resource_dir) des_path : P lib Int) := by
  unfold prepareGet
  simp only [Prog.bind_eq, Prog.pure_eq]
  refine asks_call (e := .lstat _) trivial (fun found => ?_)
  cases found with
  | some stat_path =>
      refine asks_wish (fun option => trivial) (fun option agrees => ?_)
      rw [if_pos rfl]
      refine asks_call (e := .access _ .w) trivial (fun writeable => ?_)
      cases writeable with
      | false => trivial
      | true => exact requestGet_leads parsed (.taken agrees)
  | none =>
      refine asks_call (e := .stat des_path) trivial (fun there => ?_)
      cases there with
      | none => trivial
      | some stat_dir =>
          refine asks_call (e := .access des_path .w) trivial (fun writeable => ?_)
          cases writeable with
          | false => trivial
          | true => exact requestGet_leads parsed .free

theorem clientGet_leads :
    Asks (Warrant stack ckpt_path K res_path des_path) []
      (clientGet stack ckpt_path K res_path des_path : P lib Int) := by
  unfold clientGet
  obtain ⟨parsed, name, dir, split, _⟩ :=
    parseResourcePath_cases res_path stack.resource_name stack.resource_dir
  rw [split]
  cases parsed with
  | true => exact prepareGet_leads split
  | false => trivial

theorem runOperation_leads (operation : CStr) (res_path des_path : Option CStr) :
    Asks (fun log todo => ∃ res des, res_path = some res ∧ des_path = some des ∧
      Warrant stack ckpt_path K res des log todo) []
      (runOperation stack ckpt_path K operation res_path des_path : P lib Int) := by
  have mono : ∀ {res des} {program : P lib Int}, Asks (Warrant stack ckpt_path K res des) [] program →
      Asks (fun log todo => ∃ res' des', some res = some res' ∧ some des = some des' ∧
        Warrant stack ckpt_path K res' des' log todo) [] program :=
    fun asks => asks.mono (fun _ _ warrant => ⟨_, _, rfl, rfl, warrant⟩)
  unfold runOperation
  split
  · exact clientPing_leads
  · split
    · cases res_path with
      | none => trivial
      | some res =>
          cases des_path with
          | none => trivial
          | some des => exact mono clientPut_leads
    · split
      · cases res_path with
        | none => trivial
        | some res =>
            cases des_path with
            | none => trivial
            | some des => exact mono clientGet_leads
      · trivial

/-- Whatever the server sends and whichever calls fail, a client has left its file system and its
    current directory alone, or it was given both paths and has come with both as they were to one of
    three points: one of the three exchanges was complete, in which the user has agreed where there is
    something to agree to. -/
theorem runOperation_warranted (operation : CStr) (res_path des_path : Option CStr)
    {program : P lib Int} {t : SysTape lib}
    (run : Prog.Reach (Exposed lib) (runOperation stack ckpt_path K operation res_path des_path, ⟨w, []⟩)
      (program, t)) :
    t.world = w ∨ ∃ log todo, (∃ res des, res_path = some res ∧ des_path = some des ∧
        Warrant stack ckpt_path K res des log todo) ∧
      Prog.Reach (Exposed lib) (runOperation stack ckpt_path K operation res_path des_path, ⟨w, []⟩)
        (todo, ⟨w, log⟩) ∧
      Prog.Reach (Exposed lib) (todo, ⟨w, log⟩) (program, t) :=
  (runOperation_leads operation res_path des_path).reach run

end Client

theorem runOperation_warranted_small :
    uploadRun.leftTape.world = uploader.world ∨ ∃ log todo,
      (∃ res des, uploader.res_path = some res ∧ uploader.des_path = some des ∧
        Warrant uploader.stack uploader.ckpt_path uploader.K res des log todo) ∧
      Prog.Reach (Exposed reference) (todo, ⟨uploader.world, log⟩) (uploadRun.left, uploadRun.leftTape) := by
  rcases runOperation_warranted uploader.operation uploader.res_path uploader.des_path
    (Pair.reach_left_solo reach_uploadRun) with same | ⟨log, todo, warrant, _, run⟩
  · exact Or.inl same
  · exact Or.inr ⟨log, todo, warrant, run⟩

end Filerail
