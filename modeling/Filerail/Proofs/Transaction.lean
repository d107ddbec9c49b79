/-
Module: Filerail.Proofs.Transaction
Layer: Proofs
Purpose: A client and a child of the server on machines that do what they are asked. Before the transfer
  either of them only looks at its files and says codes and headers; `Preamble` has the rules for that
  part. Behind it comes one of the two handlers, which does inside the conversation what was proved of
  it in a transfer. `Delivery.settled` puts the two ends together.
Imports: Filerail.Proofs.Exchange, Filerail.Proofs.Landing
Main exports: Preliminary, Preamble, Preamble.look, Preamble.sayCode, Preamble.sayHeader,
  Preamble.hearCode, Preamble.hearHeader, Preamble.storage, World.Offers, Supplies, SenderEnds,
  Supplies.sends, Delivery.ReceiverEnds, Delivery.receives, Unloaded, Delivery.settled, header_names
-/
import Filerail.Proofs.Exchange
import Filerail.Proofs.Landing

namespace Filerail

open FileStore ProgramLogic

variable {lib : Lib}

/-! ### Before a transfer -/

/-- What is done before a transfer. -/
def Preliminary : Act (Sys lib.md5.Ctx) Schema.Val → Prop
  | .loc e => Reads e ∧ Unmarked (some e)
  | .send .code _ => True
  | .send .resource _ => True
  | .send _ _ => False
  | .recv _ => True

theorem Talk.legal_of_code {p : Talk} {c : UInt8} (among : c ∈ p.codes) : p.legal ⟨.code, c⟩ :=
  among

/-- A side whose world is `w` and whose log is `quiet` may do what is preliminary, and stays so. -/
structure Preamble (lib : Lib) (agenda : Agenda) (side : Side)
    (guard : Endpoint (SysTape lib) Talk → Option (Act (Sys lib.md5.Ctx) Schema.Val) → Prop)
    (w : World) (quiet : List (SysEvent lib) → Prop) : Prop where
  grows : ∀ log (a : Act (Sys lib.md5.Ctx) Schema.Val) (r : a.Answer Sys.Resp), quiet log →
    Preliminary a → quiet (⟨a, r⟩ :: log)
  watch : ∀ (t : SysTape lib) p b a, t.world = w → quiet t.log → Preliminary a →
    Obeys (conversation agenda) side ⟨t, p, b⟩ (some a) → guard ⟨t, p, b⟩ (some a)

namespace Preamble

variable {agenda : Agenda} {side : Side} {lossy total : Prop} {w : World}
  {guard : Endpoint (SysTape lib) Talk → Option (Act (Sys lib.md5.Ctx) Schema.Val) → Prop}
  {quiet : List (SysEvent lib) → Prop} (preamble : Preamble lib agenda side guard w quiet)
  {t : SysTape lib} (here : t.world = w) (calm : quiet t.log) {α : Type} {p : Talk}
  {post : α → Endpoint (SysTape lib) Talk → Prop}

include preamble here calm

/-- A look at the files. -/
theorem look {e : Sys lib.md5.Ctx} (may : Preliminary (.loc e : Act (Sys lib.md5.Ctx) Schema.Val))
    {f : e.Resp → P lib α} {b : Bool}
    (next : ∀ r t', t'.world = w → quiet t'.log → Does lib w e r w →
      Wp (endpointSem (conversation agenda) side lossy (Alone lib)) guard total (f r) ⟨t', p, b⟩ post) :
    Wp (endpointSem (conversation agenda) side lossy (Alone lib)) guard total
      (Prog.bind (Prog.loc (sys e)) f) ⟨t, p, b⟩ post := by
  refine wp_does_call_bind (preamble.watch t p b (.loc e) here calm may trivial)
    (fun _ => does_answers _ _ may.1.alive) (fun r w' does => ?_)
  have answer : sysSem lib False t.world e r w' := Or.inl does
  have same : w' = t.world := reads_same may.1 answer
  subst same
  refine next r _ here (preamble.grows _ (.loc e) r calm may) ?_
  rw [← here]
  exact does

/-- A code or a header is sent. -/
theorem say (mine : p.turn = some side) {k : Schema} {v : k.Val}
    (may : Preliminary (.send k v : Act (Sys lib.md5.Ctx) Schema.Val)) (allowed : p.allowed agenda ⟨k, v⟩)
    {f : Bool → P lib α}
    (sent : ∀ t', t'.world = w → quiet t'.log →
      Wp (endpointSem (conversation agenda) side lossy (Alone lib)) guard total (f true)
        ⟨t', p.next ⟨k, v⟩, false⟩ post)
    (unsent : lossy → ∀ t', t'.world = w → quiet t'.log →
      Wp (endpointSem (conversation agenda) side lossy (Alone lib)) guard total (f false)
        ⟨t', p, true⟩ post) :
    Wp (endpointSem (conversation agenda) side lossy (Alone lib)) guard total
      (Prog.bind (send k v) f) ⟨t, p, false⟩ post := by
  refine wp_say mine allowed (fun obeys => preamble.watch t p false _ here calm may obeys) ?_ (fun lost => ?_)
  · exact sent _ here (preamble.grows _ (.send k v) true calm may)
  · exact unsent lost _ here (preamble.grows _ (.send k v) false calm may)

/-- A code or a header is received. -/
theorem hear (theirs : p.turn = some side.other) {k : Schema} (kind : p.schema = k)
    (may : Preliminary (.recv k : Act (Sys lib.md5.Ctx) Schema.Val))
    (able : ∃ v, p.allowed agenda ⟨k, v⟩) {f : Option k.Val → P lib α} {b : Bool}
    (received : ∀ v t', p.allowed agenda ⟨k, v⟩ → t'.world = w → quiet t'.log →
      Wp (endpointSem (conversation agenda) side lossy (Alone lib)) guard total (f (some v))
        ⟨t', p.next ⟨k, v⟩, b⟩ post)
    (unreceived : lossy → ∀ t', t'.world = w → quiet t'.log →
      Wp (endpointSem (conversation agenda) side lossy (Alone lib)) guard total (f none)
        ⟨t', p, b⟩ post) :
    Wp (endpointSem (conversation agenda) side lossy (Alone lib)) guard total
      (Prog.bind (recv k) f) ⟨t, p, b⟩ post := by
  refine wp_hear theirs kind (fun obeys => preamble.watch t p b _ here calm may obeys) (fun _ => able)
    (fun v allowed => ?_) (fun lost => ?_)
  · exact received v _ allowed here (preamble.grows _ (.recv k) (some v) calm may)
  · exact unreceived lost _ here (preamble.grows _ (.recv k) none calm may)

section Frames

variable (p)

/-- A code is sent. -/
theorem sayCode (mine : p.turn = some side) {c : UInt8} (allowed : p.allowed agenda ⟨.code, c⟩)
    {f : Bool → P lib α}
    (sent : ∀ t', t'.world = w → quiet t'.log →
      Wp (endpointSem (conversation agenda) side lossy (Alone lib)) guard total (f true)
        ⟨t', p.next ⟨.code, c⟩, false⟩ post)
    (unsent : lossy → ∀ t', t'.world = w → quiet t'.log →
      Wp (endpointSem (conversation agenda) side lossy (Alone lib)) guard total (f false)
        ⟨t', p, true⟩ post) :
    Wp (endpointSem (conversation agenda) side lossy (Alone lib)) guard total
      (Prog.bind (send .code c) f) ⟨t, p, false⟩ post :=
  preamble.say (k := .code) here calm mine trivial allowed sent unsent

/-- A header is sent. -/
theorem sayHeader (mine : p.turn = some side) {resource : ResourceHeader}
    (allowed : p.allowed agenda ⟨.resource, resource⟩) {f : Bool → P lib α}
    (sent : ∀ t', t'.world = w → quiet t'.log →
      Wp (endpointSem (conversation agenda) side lossy (Alone lib)) guard total (f true)
        ⟨t', p.next ⟨.resource, resource⟩, false⟩ post)
    (unsent : lossy → ∀ t', t'.world = w → quiet t'.log →
      Wp (endpointSem (conversation agenda) side lossy (Alone lib)) guard total (f false)
        ⟨t', p, true⟩ post) :
    Wp (endpointSem (conversation agenda) side lossy (Alone lib)) guard total
      (Prog.bind (send .resource resource) f) ⟨t, p, false⟩ post :=
  preamble.say (k := .resource) here calm mine trivial allowed sent unsent

/-- A code is received. -/
theorem hearCode (theirs : p.turn = some side.other) (kind : p.schema = .code)
    (able : ∃ c : UInt8, p.allowed agenda ⟨.code, c⟩)
    {f : Option UInt8 → P lib α} {b : Bool}
    (received : ∀ c t', p.allowed agenda ⟨.code, c⟩ → t'.world = w → quiet t'.log →
      Wp (endpointSem (conversation agenda) side lossy (Alone lib)) guard total (f (some c))
        ⟨t', p.next ⟨.code, c⟩, b⟩ post)
    (unreceived : lossy → ∀ t', t'.world = w → quiet t'.log →
      Wp (endpointSem (conversation agenda) side lossy (Alone lib)) guard total (f none)
        ⟨t', p, b⟩ post) :
    Wp (endpointSem (conversation agenda) side lossy (Alone lib)) guard total
      (Prog.bind (recv .code) f) ⟨t, p, b⟩ post :=
  preamble.hear here calm theirs kind trivial able received unreceived

/-- A header is received. -/
theorem hearHeader (theirs : p.turn = some side.other) (kind : p.schema = .resource)
    (able : ∃ resource : ResourceHeader, p.allowed agenda ⟨.resource, resource⟩)
    {f : Option ResourceHeader → P lib α} {b : Bool}
    (received : ∀ resource t', p.allowed agenda ⟨.resource, resource⟩ → t'.world = w → quiet t'.log →
      Wp (endpointSem (conversation agenda) side lossy (Alone lib)) guard total (f (some resource))
        ⟨t', p.next ⟨.resource, resource⟩, b⟩ post)
    (unreceived : lossy → ∀ t', t'.world = w → quiet t'.log →
      Wp (endpointSem (conversation agenda) side lossy (Alone lib)) guard total (f none)
        ⟨t', p, b⟩ post) :
    Wp (endpointSem (conversation agenda) side lossy (Alone lib)) guard total
      (Prog.bind (recv .resource) f) ⟨t, p, b⟩ post :=
  preamble.hear here calm theirs kind trivial able received unreceived

end Frames

/-- The storage check looks once. -/
theorem storage (size : UInt64) {f : Bool → P lib α} {b : Bool}
    (next : ∀ ok t', t'.world = w → quiet t'.log →
      Wp (endpointSem (conversation agenda) side lossy (Alone lib)) guard total (f ok) ⟨t', p, b⟩ post) :
    Wp (endpointSem (conversation agenda) side lossy (Alone lib)) guard total
      (Prog.bind (checkStorageSize size).loc f) ⟨t, p, b⟩ post := by
  unfold checkStorageSize
  simp only [Prog.bind_eq, Prog.pure_eq, Prog.loc_bind, Prog.bind_assoc]
  refine preamble.look here calm (e := .statvfs [slash]) ⟨trivial, trivial⟩ (fun r t' here calm _ => ?_)
  cases r with
  | none => exact next _ t' here calm
  | some out => exact next _ t' here calm

end Preamble

/-! ### What is to be sent -/

/-- There is a file or a directory at the path itself. -/
def World.Offers (w : World) (path : CStr) : Prop :=
  (∃ i, w.fs.node (w.loc path) = some (.file i)) ∨ w.fs.node (w.loc path) = some .dir

/-- What `lstat` says about it. -/
def World.Finds (w : World) (path : CStr) (st : Stat) : Prop :=
  StatOf w.fs (w.loc path) (some st)

/-- It is found, and it can be read. -/
theorem World.Offers.found {w : World} {path : CStr} (offers : w.Offers path) {r : Option Stat}
    (stat : StatOf w.fs (w.loc path) r) :
    ∃ st, r = some st ∧ (isFile st || isDir st) = true ∧ w.fs.node (w.target path) ≠ none := by
  rcases offers with ⟨i, file⟩ | here
  · refine ⟨_, (statOf_file file).mp stat, rfl, ?_⟩
    rw [World.target, Store.follow_eq_self (fun l link => by
      rw [file] at link
      cases link) _, file]
    exact Option.some_ne_none _
  · cases r with
    | none =>
        have absent : w.fs.node (w.loc path) = none := stat
        rw [here] at absent
        cases absent
    | some st =>
        refine ⟨st, rfl, ?_, ?_⟩
        · simp only [StatOf, here] at stat
          simp [isDir, stat]
        · rw [World.target, Store.follow_eq_self (fun l link => by
            rw [here] at link
            cases link) _, here]
          exact Option.some_ne_none _

/-! ### The side that sends -/

section Sending

variable {lossy total : Prop} {s : Sender} {F : List UInt8} {log : List (SysEvent lib)}

/-- Whenever the handler is called, the sender comes to the archive `F`, unless the connection may be
    lost anyway. -/
def Supplies (lib : Lib) (lossy total : Prop) (s : Sender) (F : List UInt8) : Prop :=
  ∀ log : List (SysEvent lib), Unremoved log →
    Wp (Alone lib) (fun _ e => Unwatched e) total s.pack ⟨s.world, log⟩
      (Prepared still False s.zip (· = F) (fun _ _ => lossy))

/-- Packing does not depend on what has happened before. -/
theorem Yields.prepared_behind (yields : Yields lib s F) (unremoved : Unremoved log) :
    Wp (Alone lib) (fun _ e => Unwatched e) False s.pack ⟨s.world, log⟩
      (Prepared still False s.zip (· = F) (fun status _ => ∃ t, s.Packing lib (.inl status) t)) := by
  refine wp_mono (wp_reached (prepare_wp shared_still unremoved (Or.inr yields.home) s.resource_dir
    s.resource_name s.stat_resource)) ?_
  rintro out t ⟨run, ready⟩
  obtain ⟨more, _, run'⟩ := reach_relog run []
  have packing : s.Packing lib out ⟨t.world, more ++ []⟩ := run'
  cases out with
  | inl status => exact ⟨_, packing⟩
  | inr dir =>
      obtain ⟨F', _, quiet, inv, l, i, home, held, calm, holds, same⟩ := ready
      obtain ⟨target, node, data⟩ := held.file _ holds
      have content : t.world.fs.fileAt (t.world.target s.zip) = some F :=
        yields.content dir ⟨t.world, more ++ []⟩ packing
      rw [Sender.zip, target, Store.fileAt_of_node node, data] at content
      cases content
      exact ⟨_, rfl, quiet, inv, l, i, home, held, calm, holds, same⟩

theorem Yields.supplies (yields : Yields lib s F) : Supplies lib True False s F := by
  intro log unremoved
  refine wp_mono (yields.prepared_behind unremoved) (fun out t ready => ?_)
  cases out with
  | inl status => trivial
  | inr dir => exact ready

theorem Packs.supplies (packs : Packs lib s F) : Supplies lib False True s F := by
  intro log unremoved
  have ends : Terminates (Alone lib) s.pack ⟨s.world, log⟩ := terminates_relog packs.ends rfl
  refine wp_mono ⟨(packs.toYields.prepared_behind unremoved).sound, fun _ => ends⟩ (fun out t ready => ?_)
  cases out with
  | inl status =>
      obtain ⟨t', packing⟩ := ready
      exact packs.succeeds status t' packing
  | inr dir => exact ready

/-- How the sender's program ends: it has learnt that there is to be no transfer, or how the receiver
    has answered it. -/
def SenderEnds (put : Phase → Talk) (lossy : Prop) (h : Hash) (r : Int)
    (e : Endpoint (SysTape lib) Talk) : Prop :=
  lossy ∨ (r = 0 ∧ e.pos = .ended) ∨
    ∃ code, e.pos = put (.done h code) ∧ (code = Response.ok.code → r = 0)

/-- The handler of the sender. -/
theorem Supplies.sends {v : Delivery lib} (supplies : Supplies lib lossy total s v.F)
    (bounded : v.Bounded) {agenda : Agenda} {put : Phase → Talk} {side : Side}
    (carries : Carries (conversation agenda) put side v.terms) {t : SysTape lib}
    (here : t.world = s.world) (unremoved : Unremoved t.log) :
    Wp (endpointSem (conversation agenda) side lossy (Alone lib)) (Obeys (conversation agenda) side) total
      (s.handler v.site.K) ⟨t, put .hash, false⟩
      (fun r e => Status r ∧ SenderEnds put lossy v.hash r e) := by
  have accepts : ∀ F, F = v.F → Accepts lib v.site.K False v.terms F := by
    rintro _ rfl
    exact accepts_pinned v.small bounded.some_offset bounded.inside
  have prepared := supplies t.log unremoved
  rw [← here] at prepared
  have handler : Wp (endpointSem (conversation agenda) side lossy (Alone lib))
      (Conforms (conversation agenda) put side) total (s.handler v.site.K) ⟨t, put .hash, false⟩
      (fun r e => (lossy ∧ e.pos = put .hash ∧ e.broken = false) ∨
        ∃ F, F = v.F ∧ Settled put (Excuse lossy False False F) (lib.md5.digest F) r e) :=
    sendfileHandler_wp put side carries (fun _ => id) accepts prepared
  refine wp_returns (sendfileHandler_returns _ _ _ _ _)
    (wp_mono (wp_guard_mono handler (fun _ _ conforms => conforms.1)) ?_)
  rintro r e (⟨lost, _⟩ | ⟨F, rfl, _, excuse | ⟨code, done, _, zero⟩⟩)
  · exact Or.inl lost
  · have small := bounded.small
    have large : lossy ∨ 2 ^ 63 ≤ v.F.length := by
      simpa [Excuse] using excuse
    exact Or.inl (large.resolve_right (by omega))
  · exact Or.inr (Or.inr ⟨code, done, zero⟩)

/-- In front of the transfer the sender has removed nothing. -/
theorem preamble_sender (agenda : Agenda) (side : Side) (w : World) :
    Preamble lib agenda side (Obeys (conversation agenda) side) w Unremoved where
  grows log a r unremoved may := by
    refine unremoved.cons (fun path same => ?_) r
    subst same
    exact may.1
  watch _ _ _ _ _ _ _ obeys := obeys

end Sending

/-! ### The side that receives -/

namespace Delivery

variable {v : Delivery lib} {lossy total : Prop} {agenda : Agenda} {side : Side}

/-- The world of the receiver before the transfer. -/
def before (v : Delivery lib) : World :=
  ⟨v.found, v.site.cwd⟩

theorem stage_before {t : SysTape lib} (here : t.world = v.before) : v.Stage t :=
  ⟨v.site.cwd, v.data₀, v.ckpt₀, ⟨here ▸ View.start v.ready, here ▸ rfl⟩, .untouched⟩

/-- In front of the transfer the receiver has hashed and extracted nothing. -/
theorem preamble_receiver (v : Delivery lib) (agenda : Agenda) (side : Side) :
    Preamble lib agenda side (v.guard (conversation agenda) side) v.before
      (fun log => Unhashed log ∧ ¬ Extracted log) where
  grows log a r := by
    rintro ⟨unhashed, never⟩ may
    constructor
    · refine unhashed.cons (fun ctx same => ?_) r
      subst same
      exact may.2
    · refine not_extracted_cons never (fun path dir same => ?_)
      cases same
      exact may.1
  watch t p b a here calm may obeys := by
    refine ⟨obeys, stage_before here, ?_⟩
    cases a with
    | loc e =>
        cases e with
        | md5Final ctx => exact may.2.elim
        | zipExtract path dir => exact may.2.elim
        | _ => trivial
    | send k w =>
        cases k with
        | code => exact Or.inl calm.1
        | offset => exact may.elim
        | _ => trivial
    | recv k => trivial

/-- How the receiving handler ends: the delivery is concluded, and what was extracted is there. -/
def Received (v : Delivery lib) (put : Phase → Talk) (lossy : Prop)
    (s : Endpoint (SysTape lib) Talk) : Prop :=
  v.Stage s.tape ∧ (lossy ∨ (v.Concluded put s ∧ (Extracted s.tape.log → v.Landed s.tape)))

/-- How the receiver's program ends: there was no transfer and nothing has changed, or the handler has
    come to its end. -/
def ReceiverEnds (v : Delivery lib) (put : Phase → Talk) (lossy : Prop)
    (s : Endpoint (SysTape lib) Talk) : Prop :=
  v.Stage s.tape ∧ ((s.pos = .ended ∧ s.tape.world = v.before) ∨ v.Received put lossy s)

theorem Received.ends {put : Phase → Talk} {s : Endpoint (SysTape lib) Talk}
    (received : v.Received put lossy s) : v.ReceiverEnds put lossy s :=
  ⟨received.1, Or.inr received⟩

/-- The handler of the receiver. -/
theorem receives {put : Phase → Talk} {sender : Side}
    (carries : Carries (conversation agenda) put sender v.terms) {t : SysTape lib}
    (here : t.world = v.before) (calm : Unhashed t.log ∧ ¬ Extracted t.log) :
    Wp (endpointSem (conversation agenda) sender.other lossy (Alone lib))
      (v.guard (conversation agenda) sender.other) total
      (recvfileHandler v.site.mem v.site.resource_name v.site.resource_dir v.site.resource_path
        v.site.ckpt_path v.site.K) ⟨t, put .hash, false⟩
      (fun _ s => v.Received put lossy s) := by
  have concludes : Wp (endpointSem (conversation agenda) sender.other lossy (Alone lib))
      (v.guard (conversation agenda) sender.other) total _ ⟨t, put .hash, false⟩ (v.Outcome put lossy) :=
    recvfileHandler_wp put sender carries here calm.1
  refine wp_mono (wp_guard_mono
    (wp_and concludes (recvfileHandler_lands carries here calm.1 calm.2)) (fun _ _ both => both.1)) ?_
  rintro r s ⟨⟨stage, lost | concluded⟩, landed⟩
  · exact ⟨stage, Or.inl lost⟩
  · exact ⟨stage, Or.inr ⟨concluded, landed⟩⟩

/-- The handler of a receiver that could not announce the transfer waits for a hash that never comes. -/
theorem unheard (put : Phase → Talk) {p : Talk} (mine : p.turn = some side) {t : SysTape lib}
    (here : t.world = v.before) (calm : Unhashed t.log ∧ ¬ Extracted t.log) (lost : lossy) :
    Wp (endpointSem (conversation agenda) side lossy (Alone lib))
      (v.guard (conversation agenda) side) total
      (recvfileHandler v.site.mem v.site.resource_name v.site.resource_dir v.site.resource_path
        v.site.ckpt_path v.site.K) ⟨t, p, true⟩ (fun _ s => v.Received put lossy s) := by
  have preamble := v.preamble_receiver agenda side
  have gaveUp : ∀ {t : SysTape lib}, t.world = v.before →
      Wp (endpointSem (conversation agenda) side lossy (Alone lib))
        (v.guard (conversation agenda) side) total (receiverCleanUp none (-1)).loc ⟨t, p, true⟩
        (fun _ s => v.Received put lossy s) :=
    fun here => wp_ret.mpr ⟨stage_before here, Or.inl lost⟩
  unfold recvfileHandler
  simp only [Prog.bind_eq]
  refine preamble.look here calm (e := .getcwd) ⟨trivial, trivial⟩ (fun cwd t₁ here calm _ => ?_)
  cases cwd with
  | none => exact gaveUp here
  | some current_dir =>
      refine wp_recv (preamble.watch t₁ p true (.recv .hash) here calm trivial (Or.inl ⟨mine, rfl⟩))
        (fun _ => Or.inl lost) ?_ (fun _ => gaveUp here)
      intro h theirs _
      exact absurd (Option.some.inj (mine.symm.trans theirs)) (Side.ne_other side)

/-- A return before the transfer. -/
theorem ends_before {put : Phase → Talk} {t : SysTape lib} (here : t.world = v.before) {p : Talk}
    {b : Bool} (why : lossy ∨ p = .ended) : v.ReceiverEnds put lossy ⟨t, p, b⟩ := by
  rcases why with lost | ended
  · exact ⟨stage_before here, Or.inr ⟨stage_before here, Or.inl lost⟩⟩
  · exact ⟨stage_before here, Or.inl ⟨ended, here⟩⟩

end Delivery

/-! ### The end -/

/-- The archive has arrived: neither the partial file nor the checkpoint is left, and if its entries go
    to different places that were free, each of them is there. -/
structure Unloaded (lib : Lib) (site : Site) (F : List UInt8) (found fs : Store Name UInt8) : Prop where
  data : fs.node site.data = none
  ckpt : fs.node (site.ckpt (lib.md5.digest F)) = none
  files : ∀ es, lib.zip.entries F = some es →
    (∀ e ∈ es, found.node (walk site.exdir [] e.1) = none) →
    es.Pairwise (fun a b => walk site.exdir [] a.1 ≠ walk site.exdir [] b.1) →
    ∀ e ∈ es, fs.fileAt (walk site.exdir [] e.1) = some e.2

namespace Delivery

variable {v : Delivery lib}

/-- Nothing is missing to what the receiver has in the end. -/
def Intact (v : Delivery lib) : Prop :=
  ∀ k B, Start v.site v.data₀ v.ckpt₀ k B → received B k.toNat v.F v.F.length = v.F

/-- A handler that has come to its end without a loss has the archive, and the sender returns `0`. -/
theorem Received.settled {put : Phase → Talk} (inj : Function.Injective put)
    (inside : ∀ p, put p ≠ .ended) (intact : v.Intact) {r : Int} {e e' : Endpoint (SysTape lib) Talk}
    (sent : SenderEnds put False v.hash r e) (received : v.Received put False e')
    (same : e.pos = e'.pos)
    (extracts : ∀ path dir, (⟨.loc (.zipExtract path dir), false⟩ : SysEvent lib) ∉ e'.tape.log) :
    r = 0 ∧ Unloaded lib v.site v.F v.found e'.tape.world.fs := by
  obtain ⟨⟨_, k, B, start, concluded⟩, landed⟩ := received.2.resolve_left id
  rcases concluded with ⟨_, done, path, dir, ok, logged, seen⟩ | ⟨differs, _⟩
  · cases ok with
    | false => exact absurd logged (extracts path dir)
    | true =>
        have seen := seen rfl
        refine ⟨?_, seen.data_absent rfl, seen.ckpt_absent rfl, ?_⟩
        · rcases sent.resolve_left id with ⟨_, ended⟩ | ⟨code, pos, zero⟩
          · exact absurd (done.symm.trans (same.symm.trans ended)) (inside _)
          · have agreed := inj (pos.symm.trans (same.trans done))
            cases agreed
            exact zero rfl
        · intro es archive free distinct entry member
          exact (landed ⟨path, dir, logged⟩).files intact archive free distinct member
  · exact absurd (congrArg lib.md5.digest (intact k B start)) differs

/-- Both sides come to the same end: there was no transfer and the files of the receiver are as they
    were, or the archive has arrived. The sender returns `0`. -/
theorem settled {put : Phase → Talk} (inj : Function.Injective put) (inside : ∀ p, put p ≠ .ended)
    (intact : v.Intact) {r : Int} {e e' : Endpoint (SysTape lib) Talk}
    (sent : SenderEnds put False v.hash r e) (received : v.ReceiverEnds put False e')
    (same : e.pos = e'.pos)
    (extracts : ∀ path dir, (⟨.loc (.zipExtract path dir), false⟩ : SysEvent lib) ∉ e'.tape.log) :
    r = 0 ∧ (e'.tape.world = v.before ∨ Unloaded lib v.site v.F v.found e'.tape.world.fs) := by
  rcases received.2 with ⟨ended, world⟩ | received
  · refine ⟨?_, Or.inl world⟩
    rcases sent.resolve_left id with ⟨zero, _⟩ | ⟨code, pos, _⟩
    · exact zero
    · exact absurd (pos.symm.trans (same.trans ended)) (inside _)
  · obtain ⟨zero, unloaded⟩ := received.settled inj inside intact sent same extracts
    exact ⟨zero, Or.inr unloaded⟩

/-- What the handler returns from leads to no frame. -/
theorem Received.quiet {put : Phase → Talk} (quiet : ∀ h code, (put (.done h code)).turn = none)
    {e : Endpoint (SysTape lib) Talk} (received : v.Received put False e) : e.pos.turn = none := by
  obtain ⟨⟨_, k, B, _, ⟨_, pos, _⟩ | ⟨_, pos, _⟩⟩, _⟩ := received.2.resolve_left id
  · rw [pos]
    exact quiet _ _
  · rw [pos]
    exact quiet _ _

/-- What the receiver's program returns from leads to no frame. -/
theorem ReceiverEnds.quiet {put : Phase → Talk} (quiet : ∀ h code, (put (.done h code)).turn = none)
    {e : Endpoint (SysTape lib) Talk} (ends : v.ReceiverEnds put False e) : e.pos.turn = none := by
  rcases ends.2 with ⟨pos, _⟩ | received
  · rw [pos]
    rfl
  · exact received.quiet quiet

end Delivery

theorem SenderEnds.quiet {put : Phase → Talk} (quiet : ∀ h code, (put (.done h code)).turn = none)
    {h : Hash} {r : Int} {e : Endpoint (SysTape lib) Talk} (ends : SenderEnds put False h r e) :
    e.pos.turn = none := by
  rcases ends.resolve_left id with ⟨_, pos⟩ | ⟨code, pos, _⟩
  · rw [pos]
    rfl
  · rw [pos]
    exact quiet _ _

/-! ### The names in a header -/

theorem toList_pad {n : Nat} {bytes : List UInt8} (fits : bytes.length < n) :
    (pad n bytes).toList = bytes ++ 0 :: List.replicate (n - bytes.length - 1) 0 := by
  obtain ⟨m, hm⟩ : ∃ m, n - bytes.length = m + 1 := ⟨n - bytes.length - 1, by omega⟩
  show (bytes ++ List.replicate n 0).take n = _
  rw [List.take_append, List.take_of_length_le fits.le, List.take_replicate,
    Nat.min_eq_left (Nat.sub_le _ _), hm, List.replicate_succ]
  rfl

/-- The header of a request says the name and the directory, if they fit. -/
theorem header_names {size : UInt64} {name dir : CStr} (clean_name : (0 : UInt8) ∉ name)
    (clean_dir : (0 : UInt8) ∉ dir) (fits_name : name.length < MAX_RESOURCE_LENGTH)
    (fits_dir : dir.length < MAX_PATH_LENGTH) :
    (ResourceHeader.mk size (pad _ name) (pad _ dir)).nameStr = name ∧
      (ResourceHeader.mk size (pad _ name) (pad _ dir)).dirStr = dir := by
  constructor
  · rw [ResourceHeader.nameStr, toList_pad fits_name, List.append_assoc, List.cons_append,
      cstr_append_zero clean_name]
  · rw [ResourceHeader.dirStr, toList_pad fits_dir, cstr_append_zero clean_dir]

end Filerail
