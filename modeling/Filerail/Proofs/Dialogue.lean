/-
Module: Filerail.Proofs.Dialogue
Layer: Proofs
Purpose: Whole sessions: a client, whatever it is asked to do, and the child of the server that was forked
  for it, each on a machine where any call may fail, over a connection that may be lost at any time. What
  was proved of either against the conversation holds of the two together in every state of every run.
Imports: Filerail.Proofs.Names, Filerail.Proofs.Parties, Filerail.Proofs.Undoing
Main exports: Customer, Clerk, session, session_tracked, Orderly, session_orderly, session_agreed
-/
import Filerail.Proofs.Names
import Filerail.Proofs.Parties
import Filerail.Proofs.Undoing

namespace Filerail

open FileStore ProgramLogic

variable {lib : Lib}

/-! ### The two programs -/

/-- What a client is started with, and the world it is started in. -/
structure Customer where
  stack : Stack
  ckpt_path : CStr
  K : AESKeys
  operation : CStr
  res_path : Option CStr
  des_path : Option CStr
  world : World

/-- What a child of the server inherits, and the world it is forked in. -/
structure Clerk where
  mem : Memory
  ckpt_path : CStr
  K : AESKeys
  world : World

/-- The program of the client. -/
def Customer.program (lib : Lib) (client : Customer) : P lib Int :=
  runOperation client.stack client.ckpt_path client.K client.operation client.res_path client.des_path

/-- The program of the child. -/
def Clerk.program (lib : Lib) (server : Clerk) : P lib Int :=
  serveClient server.mem server.ckpt_path server.K

/-- A client and a child, their worlds, and what is in flight between them. -/
abbrev Meeting (lib : Lib) := Pair (Sys lib.md5.Ctx) Sys.Resp Schema.Val Int Int World World

/-- A session before its first step. -/
def session (lib : Lib) (client : Customer) (server : Clerk) : Meeting lib :=
  Pair.start (client.program lib) client.world (server.program lib) server.world

/-- The states of sessions in which everything may fail. -/
abbrev Meeting.Reach (lib : Lib) (c c' : Meeting lib) : Prop :=
  Pair.Reach True (Unreliable lib) (Unreliable lib) c c'

/-- Both programs keep their specification from here on, and what is in flight connects their
    positions. -/
abbrev Meeting.Tracked (lib : Lib) (c : Meeting lib) (p q : Talk) : Prop :=
  Pair.Tracked (conversation anyAgenda) True (Unreliable lib) (Unreliable lib) (Courteous .left)
    (Courteous .right) False False (Parting .left) (Parting .right) c p q

theorem session_tracked (client : Customer) (server : Clerk) :
    Meeting.Tracked lib (session lib client server) .command .command where
  left := runOperation_wp _ _ _ _ _ _ _
  right := serveClient_wp _ _ _ _
  compat := Or.inl ⟨rfl, rfl⟩

section Sessions

variable {client : Customer} {server : Clerk} {c : Meeting lib}

theorem session_track (run : Meeting.Reach lib (session lib client server) c) :
    ∃ p q, Meeting.Tracked lib c p q ∧
      Prog.Reach (endpointSem (conversation anyAgenda) .left True (Unreliable lib))
        ((session lib client server).leftEnd .command) (c.leftEnd p) ∧
      Prog.Reach (endpointSem (conversation anyAgenda) .right True (Unreliable lib))
        ((session lib client server).rightEnd .command) (c.rightEnd q) :=
  Pair.track (fun _ _ courteous => courteous.1) (fun _ _ courteous => courteous.1)
    (session_tracked client server) run

/-! ### Good order -/

/-- Every frame is received by the function of its own layout; neither side comes to a branch that is
    labelled as a violation of the protocol; between two heads of the packet loop there are only packets
    in flight, and they make up the difference of the two counters; and while both connections are up
    the two sides do not wait for each other. -/
structure Orderly (c : Meeting lib) : Prop where
  left_kind : ∀ {kind k m rest}, c.left = .call (.recv kind) k → c.toLeft = m :: rest → m.1 = kind
  right_kind : ∀ {kind k m rest}, c.right = .call (.recv kind) k → c.toRight = m :: rest → m.1 = kind
  left_follows : ∀ k, c.left ≠ .call (.loc .protocolNotFollowed) k
  right_follows : ∀ k, c.right ≠ .call (.loc .protocolNotFollowed) k
  counters : ∀ {n m k k'}, c.left = .call (.loc (.remaining n)) k →
    c.right = .call (.loc (.remaining m)) k' →
      (c.toLeft = [] ∧ (∀ f ∈ c.toRight, f.1 = .packet) ∧ m = payload c.toRight + n) ∨
        (c.toRight = [] ∧ (∀ f ∈ c.toLeft, f.1 = .packet) ∧ n = payload c.toLeft + m)
  one_moves : ∀ {kl kr k k'}, c.left = .call (.recv kl) k → c.right = .call (.recv kr) k' →
    c.toLeft = [] → c.toRight = [] → c.leftBroken = true ∨ c.rightBroken = true

/-- The heads of the packet loop in one conversation are those of one transfer. -/
theorem counters_differ {side : Side} {p q : Talk} {ms : List (Frame Schema.Val)} {n m : UInt64}
    (path : (conversation anyAgenda).Path side q ms p)
    (ahead : ∃ h pos, p = .upload (Phase.rest h pos n) ∨ p = .download (Phase.rest h pos n))
    (behind : ∃ h pos, q = .upload (Phase.rest h pos m) ∨ q = .download (Phase.rest h pos m)) :
    (∀ f ∈ ms, f.1 = .packet) ∧ m = payload ms + n := by
  obtain ⟨h, pos, here⟩ := ahead
  obtain ⟨h', pos', there⟩ := behind
  rcases there with rfl | rfl
  · obtain ⟨p', rfl, within⟩ := (carries_upload anyAgenda).path path
    rcases here with same | same
    · obtain rfl := Talk.upload.inj same
      exact path_rest within
    · cases same
  · obtain ⟨p', rfl, within⟩ := (carries_download anyAgenda).path path
    rcases here with same | same
    · cases same
    · obtain rfl := Talk.download.inj same
      exact path_rest within

theorem Meeting.Tracked.orderly {p q : Talk} (tracked : Meeting.Tracked lib c p q) : Orderly c := by
  have left : ∀ {a k}, c.left = .call a k → Courteous .left ⟨c.leftTape, p, c.leftBroken⟩ (some a) := by
    intro a k here
    have wp := tracked.left.sound _ _ .refl
    simp only [Pair.leftEnd, here] at wp
    exact wp
  have right : ∀ {a k}, c.right = .call a k →
      Courteous .right ⟨c.rightTape, q, c.rightBroken⟩ (some a) := by
    intro a k here
    have wp := tracked.right.sound _ _ .refl
    simp only [Pair.rightEnd, here] at wp
    exact wp
  constructor
  · intro kind k m rest waits head
    exact tracked.same_kind (fun _ _ courteous => courteous.1) waits head
  · intro kind k m rest waits head
    exact tracked.same_kind_right (fun _ _ courteous => courteous.1) waits head
  · intro k here
    exact (left here).2.1
  · intro k here
    exact (right here).2.1
  · intro n m k k' atLeft atRight
    have hereL : Observed ⟨c.leftTape, p, c.leftBroken⟩ (some (.loc (.remaining n))) := (left atLeft).2.1
    have hereR : Observed ⟨c.rightTape, q, c.rightBroken⟩ (some (.loc (.remaining m))) :=
      (right atRight).2.1
    rcases tracked.compat with ⟨empty, path⟩ | ⟨empty, path⟩
    · exact Or.inl ⟨empty, counters_differ path hereL hereR⟩
    · exact Or.inr ⟨empty, counters_differ path hereR hereL⟩
  · intro kl kr k k' waitsL waitsR emptyL emptyR
    exact tracked.not_both_wait (fun _ _ courteous => courteous.1) (fun _ _ courteous => courteous.1)
      waitsL waitsR emptyL emptyR

/-! ### Agreement on the result -/

/-- A hash that went out is that of the file the side sends. -/
def Announced (side : Side) (p : Talk) (log : List (SysEvent lib)) : Prop :=
  ∀ h, (⟨.send .hash h, true⟩ : SysEvent lib) ∈ log →
    ∃ phase, p = outgoing side phase ∧ phase.known = some h

/-- An OK at the end of a transfer was sent for a hash that was computed. -/
def Endorsed (side : Side) (p : Talk) (log : List (SysEvent lib)) : Prop :=
  ∀ h, p = incoming side (.done h Response.ok.code) →
    Computed h log ∧ (⟨.send .code Response.ok.code, true⟩ : SysEvent lib) ∈ log

variable {side : Side} {program program' : P lib Int} {s s' : Endpoint (SysTape lib) Talk}

theorem Announced.cons {p : Talk} {log : List (SysEvent lib)} (announced : Announced side p log)
    {event : SysEvent lib} (other : ∀ h, event ≠ ⟨.send .hash h, true⟩) :
    Announced side p (event :: log) := by
  intro h member
  cases member with
  | head => exact absurd rfl (other h)
  | tail _ earlier => exact announced h earlier

theorem Endorsed.cons {p : Talk} {log : List (SysEvent lib)} (endorsed : Endorsed side p log)
    (event : SysEvent lib) : Endorsed side p (event :: log) := by
  intro h ended
  obtain ⟨⟨ctx, computed⟩, answered⟩ := endorsed h ended
  exact ⟨⟨ctx, List.mem_cons_of_mem _ computed⟩, List.mem_cons_of_mem _ answered⟩

/-- Inside its transfer a side stays there, with the hash. -/
theorem announced_next {p : Talk} {log : List (SysEvent lib)} {m : Frame Schema.Val}
    (announced : Announced side p log) (may : (conversation anyAgenda).allowed p m) :
    Announced side (p.next m) log := by
  intro h logged
  obtain ⟨phase, rfl, known⟩ := announced h logged
  have inside := ((carries_outgoing side).allowed phase m).mp may
  exact ⟨phase.next m, (carries_outgoing side).next phase m inside, Phase.known_next inside known⟩

/-- A hash is sent at the beginning of the side's own transfer. -/
theorem hash_position {p : Talk} {h : Hash} (mine : p.turn = some side)
    (may : (conversation anyAgenda).allowed p ⟨.hash, h⟩) : p = outgoing side .hash := by
  cases p with
  | upload phase =>
      cases phase <;> first | exact may.elim | skip
      cases mine
      rfl
  | download phase =>
      cases phase <;> first | exact may.elim | skip
      cases mine
      rfl
  | _ => exact may.1.elim

theorem reach_announced (keeps : Keeps side program s.tape s.pos s.broken)
    (run : Prog.Reach (endpointSem (conversation anyAgenda) side True (Unreliable lib)) (program, s)
      (program', s')) (start : Announced side s.pos s.tape.log) :
    Announced side s'.pos s'.tape.log := by
  refine reach_along (I := Announced side) (c := (program, s)) keeps run start ?_ ?_ ?_ ?_ ?_
  · intro p log e r announced
    exact announced.cons (by rintro h ⟨⟩)
  · intro p log k v announced
    exact announced.cons (by rintro h ⟨⟩)
  · intro p log k announced
    exact announced.cons (by rintro h ⟨⟩)
  · intro s k v _ mine may announced
    have onwards := announced_next announced may
    intro h logged
    cases logged with
    | head =>
        have here := hash_position mine may
        refine ⟨.command h, ?_, rfl⟩
        show Talk.next s.pos ⟨.hash, h⟩ = _
        rw [here]
        exact (carries_outgoing side).next .hash ⟨.hash, h⟩ trivial
    | tail _ earlier => exact onwards h earlier
  · intro s k v _ may announced
    exact (announced_next announced may).cons (by rintro h ⟨⟩)

/-- Only the verdict leads to the end of a transfer. -/
theorem verdict_position {p : Talk} {m : Frame Schema.Val} {h : Hash} {v : UInt8}
    (may : (conversation anyAgenda).allowed p m) (ended : p.next m = incoming side (.done h v)) :
    p = incoming side (.verdict h) ∧ m = ⟨.code, v⟩ := by
  have outside : p.Apart → p.next m ≠ incoming side (.done h v) := by
    intro apart
    obtain ⟨k, v'⟩ := m
    cases p <;> first | exact apart.elim | skip
    all_goals
      cases k <;> cases side <;>
        simp only [Talk.next, Talk.reply, incoming, ne_eq] <;> (repeat' split) <;> simp
  cases p with
  | upload phase =>
      cases side with
      | left => cases ended
      | right =>
          obtain ⟨rfl, rfl⟩ := Phase.verdict_of_done may (Talk.upload.inj ended)
          exact ⟨rfl, rfl⟩
  | download phase =>
      cases side with
      | left =>
          obtain ⟨rfl, rfl⟩ := Phase.verdict_of_done may (Talk.download.inj ended)
          exact ⟨rfl, rfl⟩
      | right => cases ended
  | _ => exact absurd ended (outside trivial)

theorem turn_verdict (side : Side) (h : Hash) : (incoming side (.verdict h)).turn = some side := by
  cases side <;> rfl

theorem reach_endorsed (keeps : Keeps side program s.tape s.pos s.broken)
    (run : Prog.Reach (endpointSem (conversation anyAgenda) side True (Unreliable lib)) (program, s)
      (program', s')) (start : Endorsed side s.pos s.tape.log) :
    Endorsed side s'.pos s'.tape.log := by
  refine reach_along (I := Endorsed side) (c := (program, s)) keeps run start ?_ ?_ ?_ ?_ ?_
  · intro p log e r endorsed
    exact endorsed.cons _
  · intro p log k v endorsed
    exact endorsed.cons _
  · intro p log k endorsed
    exact endorsed.cons _
  · intro s k v courteous _ may endorsed h ended
    obtain ⟨here, message⟩ := verdict_position may ended
    cases message
    obtain ⟨ctx, computed⟩ := courteous.2.2 h here rfl
    exact ⟨⟨ctx, List.mem_cons_of_mem _ computed⟩, List.mem_cons_self⟩
  · intro s k v theirs may endorsed h ended
    obtain ⟨here, _⟩ := verdict_position may ended
    -- the verdict is not received by the side that sends it
    have clash : some side = some side.other := (turn_verdict side h).symm.trans (here ▸ theirs)
    exact absurd (Option.some.inj clash) (Side.ne_other side)

/-- The part in which one side sends is that in which the other receives. -/
theorem incoming_other (side : Side) (p : Phase) : incoming side.other p = outgoing side p := by
  cases side <;> rfl

/-- What a side that returns `0` after it has sent a hash may conclude from its own position. -/
theorem parting_done {r : Int} (parting : Parting side r s) (zero : r = 0)
    (announced : Announced side s.pos s.tape.log) {h : Hash}
    (logged : (⟨.send .hash h, true⟩ : SysEvent lib) ∈ s.tape.log) :
    s.pos = outgoing side (.done h Response.ok.code) := by
  obtain ⟨phase, here, known⟩ := announced h logged
  rcases parting.1 phase here with rfl | settled
  · cases known
  · obtain ⟨h', rfl⟩ := settled zero
    cases known
    exact here

/-- No frames of the sender lead to the end of a transfer. -/
theorem path_done {q : Talk} {ms : List (Frame Schema.Val)} {h : Hash} {v : UInt8}
    (path : (conversation anyAgenda).Path side q ms (outgoing side (.done h v))) :
    q = outgoing side (.done h v) := by
  induction ms generalizing q with
  | nil => exact path
  | cons m ms ih =>
      obtain ⟨mine, may, onwards⟩ := path
      have ended : q.next m = outgoing side (.done h v) := ih onwards
      rw [← incoming_other] at ended
      obtain ⟨here, _⟩ := verdict_position may ended
      have clash : some side.other = some side :=
        (turn_verdict side.other h).symm.trans (here ▸ mine)
      exact absurd (Option.some.inj clash) (Side.other_ne side)

/-- The other side is at the end of the same transfer. -/
theorem end_shared {q : Talk} {ms ns : List (Frame Schema.Val)} {h : Hash} {v : UInt8}
    (compat : Compat (conversation anyAgenda) side (outgoing side (.done h v)) ms q ns) :
    q = incoming side.other (.done h v) := by
  rw [incoming_other]
  rcases compat with ⟨_, path⟩ | ⟨_, path⟩
  · exact path_done path
  · refine (Protocol.path_eq_nil path ?_).2.symm
    cases side <;> simp [outgoing, conversation, Talk.turn, Phase.turn]

/-- The receiver of a file has computed the hash that was announced to it and answered OK, and if it
    returns `0` as well it has extracted the archive. -/
def Delivered (h : Hash) (log : List (SysEvent lib)) (returned : Prop) : Prop :=
  Computed h log ∧ (⟨.send .code Response.ok.code, true⟩ : SysEvent lib) ∈ log ∧
    (returned → ∃ path dir, (⟨.loc (.zipExtract path dir), true⟩ : SysEvent lib) ∈ log)

end Sessions

/-! ### One upload -/

/-- The file `/d/a` is to be put into `/b`. -/
def uploader : Customer where
  stack := Stack.zeros []
  ckpt_path := [slash, 99]
  K := ⟨zeros _, zeros _⟩
  operation := PUT_OPERATION
  res_path := some [slash, 100, slash, 97]
  des_path := some [slash, 98]
  world := ⟨Offering.smallStore, []⟩

/-- The child of a server that has `/b`, and its checkpoints in `/c`. -/
def vacant : Clerk where
  mem := (Stack.zeros []).memory
  ckpt_path := [slash, 99]
  K := ⟨zeros _, zeros _⟩
  world := ⟨tree [letter 98, letter 99] [], []⟩

/-- The session from its first step to its last. -/
@[irreducible] def uploadRun : Meeting reference :=
  Pair.play (machine reference True).onTape (machine reference True).onTape
    (turns .left 6 ++ turns .right 20 ++ turns .left 20 ++ turns .right 5 ++ turns .left 20 ++
      turns .right 45 ++ turns .left 20)
    (session reference uploader vacant)

theorem reach_uploadRun : Meeting.Reach reference (session reference uploader vacant) uploadRun := by
  unfold uploadRun
  exact Pair.reach_play _ _ _ (fun _ _ _ => trivial) _

/-- Both sides have returned `0`, the client has announced a hash, and the server has extracted an
    archive and now has `/b/a`. -/
def uploaded (c : Meeting reference) : Bool :=
  (c.left.result == some 0 && c.right.result == some 0) &&
    (!(c.leftTape.log.filterMap hashSent).isEmpty &&
      (c.rightTape.log.any extracted && (c.rightTape.world.fs.node [letter 98, letter 97]).isSome))

theorem eq_of_extracted {event : SysEvent reference} (found : extracted event = true) :
    ∃ path dir, event = ⟨.loc (.zipExtract path dir), true⟩ := by
  unfold extracted at found
  split at found
  · exact ⟨_, _, rfl⟩
  · cases found

theorem uploadRun_uploaded : uploaded uploadRun = true := by decide +kernel

/-- The session in detail. -/
theorem uploadRun_spec : uploadRun.left = .ret 0 ∧ uploadRun.right = .ret 0 ∧
    (∃ h, (⟨.send .hash h, true⟩ : SysEvent reference) ∈ uploadRun.leftTape.log) ∧
    (∃ path dir,
      (⟨.loc (.zipExtract path dir), true⟩ : SysEvent reference) ∈ uploadRun.rightTape.log) ∧
    (uploadRun.rightTape.world.fs.node [letter 98, letter 97]).isSome := by
  have shown := uploadRun_uploaded
  simp only [uploaded, Bool.and_eq_true, beq_iff_eq, Bool.not_eq_true', List.isEmpty_eq_false_iff] at shown
  obtain ⟨⟨left, right⟩, some_hash, unpacked, there⟩ := shown
  obtain ⟨h, member⟩ := List.exists_mem_of_ne_nil _ some_hash
  obtain ⟨event, logged, sent⟩ := List.mem_filterMap.mp member
  obtain ⟨event', logged', found⟩ := List.any_eq_true.mp unpacked
  obtain ⟨path, dir, rfl⟩ := eq_of_extracted found
  exact ⟨Prog.eq_ret left, Prog.eq_ret right, ⟨h, eq_of_hashSent sent ▸ logged⟩,
    ⟨path, dir, logged'⟩, there⟩

end Filerail
