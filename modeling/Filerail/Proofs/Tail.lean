/-
Module: Filerail.Proofs.Tail
Layer: Proofs
Purpose: A resumed transfer, without the search for a checkpoint: `filerail_sendfile` and
  `filerail_recvfile` called with the same offset, on a partial file that begins as the sender's file
  does. Both return `0`, and the receiver is left with the sender's file followed by what the partial
  file had behind its end, since a file opened to resume is not truncated.
Imports: Filerail.Proofs.Sender, Filerail.Proofs.Seek, Filerail.Proofs.Exchange
Main exports: Continuation, Continuation.Completes, completes_iff
-/
import Filerail.Proofs.Sender
import Filerail.Proofs.Seek
import Filerail.Proofs.Exchange

namespace Filerail

open FileStore ProgramLogic

variable {lib : Lib}

/-! ### The sender -/

/-- Any operation but a receive. -/
def Speaks (a : Act (Sys lib.md5.Ctx) Schema.Val) : Prop :=
  ∀ k, a ≠ .recv k

theorem speaks_loc {α : Type} (p : L lib α) : p.loc.Calls (@Speaks lib) :=
  Prog.Calls.loc (fun _ _ impossible => by cases impossible) p

theorem speaks_send {k : Schema} {value : k.Val} : (send k value : P lib Bool).Calls Speaks :=
  .perform (fun _ impossible => by cases impossible)

/-- The sender of a file only talks. -/
theorem sendfile_speaks (zip : CStr) (K : AESKeys) (k : UInt64) :
    (sendfile zip K k : P lib Int).Calls Speaks := by
  apply (speaks_loc _).bind
  intro fp
  cases fp with
  | none => exact speaks_loc _
  | some fp =>
      apply (speaks_loc _).bind
      intro st
      cases st with
      | none => exact speaks_loc _
      | some st =>
          apply speaks_send.bind
          intro sent
          cases sent with
          | false => exact speaks_loc _
          | true =>
              apply (speaks_loc _).bind
              intro fp
              cases fp with
              | none => exact speaks_loc _
              | some fp =>
                  apply (speaks_loc _).bind
                  intro ok
                  cases ok with
                  | false => exact speaks_loc _
                  | true =>
                      apply Prog.Calls.bind
                      · apply Prog.Calls.iterate
                        intro st
                        obtain ⟨fp, size⟩ := st
                        apply (speaks_loc _).bind
                        intro _
                        split
                        · trivial
                        · apply (speaks_loc _).bind
                          intro out
                          dsimp only
                          split
                          · trivial
                          · split
                            · trivial
                            · apply speaks_send.bind
                              intro sent
                              cases sent <;> trivial
                      · intro out
                        exact speaks_loc _

/-! ### The two calls -/

/-- The sender's file `F`, the receiver's partial file `P`, and an offset up to which they agree. The
    receiver works at `site`, with the checkpoint of `h`. -/
structure Continuation (lib : Lib) where
  site : Site
  h : Hash
  sender : World
  zip : CStr
  fs : Store Name UInt8
  k : UInt64
  F : List UInt8
  P : List UInt8
  ready : Ready site h fs
  source : sender.fs.fileAt (sender.target zip) = some F
  target : fs.fileAt site.data = some P
  inside : k.toNat ≤ F.length
  covered : k.toNat ≤ P.length
  same : P.take k.toNat = F.take k.toNat
  near : k.toNat < 2 ^ 31
  small : F.length < 2 ^ 63

namespace Continuation

variable (v : Continuation lib)

/-- The two functions before their first step. -/
def start : Pair (Sys lib.md5.Ctx) Sys.Resp Schema.Val Int Int World World :=
  Pair.start (sendfile v.zip v.site.K v.k) v.sender
    (recvfile v.site.mem v.site.resource_path v.site.K v.k (v.site.ckpt_resource_path v.h)
      v.site.resource_path) ⟨v.fs, v.site.cwd⟩

/-- Both functions come to their end and return `0`, and the receiver then has the sender's file. -/
structure Completes : Prop where
  ends : Acc (fun c' c => Pair.Step False (Alone lib) (Alone lib) c c') v.start
  equal : ∀ c, Pair.Reach False (Alone lib) (Alone lib) v.start c →
    (∀ c', ¬ Pair.Step False (Alone lib) (Alone lib) c c') →
      c.left = .ret 0 ∧ c.right = .ret 0 ∧ c.rightTape.world.fs.fileAt v.site.data = some v.F

/-- What the partial file holds when the first packet comes. -/
def opened : List UInt8 :=
  if v.k = 0 then [] else v.P

/-- What the sender may say. -/
def terms : Terms := pinned lib v.site.K v.F (· = v.k)

/-- The partial file holds `X`, and the other files of the session are in order. -/
structure Holds (X : List UInt8) (t : SysTape lib) : Prop where
  view : ∃ c, View v.site v.h (fun _ => False) v.fs t.world.fs (some X) c
  cwd : t.world.cwd = v.site.cwd

variable {v} {X : List UInt8} {t : SysTape lib}

theorem offset_opened : v.k.toNat ≤ v.opened.length := by
  unfold opened
  split
  · rename_i zero
    rw [zero]
    exact Nat.le_refl 0
  · exact v.covered

theorem small_file : (UInt64.ofNat v.F.length).toNat = v.F.length := by
  rw [UInt64.toNat_ofNat', Nat.mod_eq_of_lt]
  have small := v.small
  omega

namespace Holds

theorem data_file (holds : v.Holds X t) :
    ∃ i, t.world.fs.node v.site.data = some (.file i) ∧ t.world.fs.data i = X := by
  obtain ⟨c, view⟩ := holds.view
  exact Store.fileAt_eq_some_iff.mp view.data

theorem moved {X' : List UInt8} (holds : v.Holds X t) {w : World} {e : Sys lib.md5.Ctx} {r : e.Resp}
    {c : Option (List UInt8)} (view : View v.site v.h (fun _ => False) v.fs w.fs (some X') c)
    (cwd : w.cwd = t.world.cwd) : v.Holds X' (Tape.after t e r w) :=
  ⟨⟨c, view⟩, cwd.trans holds.cwd⟩

end Holds

/-! ### The receiver -/

section Local

variable {total : Prop} {guard : SysTape lib → Option (Sys lib.md5.Ctx) → Prop}
  (free : ∀ t e, guard t e)

include free

/-- The partial file as it is opened: empty when the transfer starts over, else as it was, with the
    stream at the offset. -/
theorem openPartial_holds (t : SysTape lib) (start : t.world = ⟨v.fs, v.site.cwd⟩) :
    Wp (Alone lib) guard True (openPartial v.site.resource_path v.k) t
      (fun out t' => ∃ i, out = (some { Stream.opened i with pos := v.k.toNat }, true) ∧
        v.Holds v.opened t' ∧ t'.world.fs.node v.site.data = some (.file i)) := by
  have view : View v.site v.h (fun _ => False) v.fs t.world.fs (some v.P)
      (v.fs.fileAt (v.site.ckpt v.h)) := by
    rw [start, ← v.target]
    exact View.start v.ready
  have holds : v.Holds v.P t := ⟨⟨_, view⟩, congrArg World.cwd start⟩
  obtain ⟨i, file, content⟩ := holds.data_file
  have opens := file
  rw [← view.ready.target_data holds.cwd] at opens
  by_cases zero : v.k = 0
  · have empty : v.opened = [] := if_pos zero
    unfold openPartial
    simp only [Prog.bind_eq, Prog.pure_eq]
    rw [if_pos zero, empty, zero]
    apply wp_only_bind (only_fopen_truncate opens) (free _ _)
    rw [wp_ret]
    exact ⟨i, rfl, holds.moved (view.writeData file []) rfl, file⟩
  · have whole : v.opened = v.P := if_neg zero
    rw [whole]
    apply wp_mono (wp_guard_mono (openPartial_seeks opens zero rfl) (fun _ _ _ => free _ _))
    rintro out t' ⟨unchanged, ⟨_, rfl⟩ | ⟨short, _⟩⟩
    · rw [counterStop_of_le v.near.le]
      rw [← unchanged] at file
      exact ⟨i, rfl, ⟨unchanged ▸ holds.view, unchanged ▸ holds.cwd⟩, file⟩
    · rw [content] at short
      have early := counterStop_le v.k.toNat
      have covered := v.covered
      omega

/-- Writing a checkpoint leaves the partial file alone. -/
theorem writeCheckpoint_holds (holds : v.Holds X t) {image : List UInt8}
    (size : image.length = sizeofCheckpoint) :
    Wp (Alone lib) guard total (writeCheckpoint image
        (v.site.ckpt_resource_path v.h ++ dotTmp) (v.site.ckpt_resource_path v.h)) t
      (fun r t' => r = (none, true) ∧ v.Holds X t' ∧
        t'.world.fs.node v.site.data = t.world.fs.node v.site.data) := by
  obtain ⟨⟨c, view⟩, cwd⟩ := holds
  obtain ⟨j, fs₁, opens, view₁, tmp, empty, node₁⟩ := view.openTmp cwd
  unfold writeCheckpoint
  simp only [Prog.bind_eq, Prog.pure_eq]
  apply wp_only_bind opens (free _ _)
  apply wp_does_bind (free _ _) (fun _ => does_answers _ _ (by simp))
  intro r w₂ does
  obtain ⟨n, rfl, rfl⟩ := fwrite_inside size.ge does
  have whole : image.take sizeofCheckpoint = image := by
    rw [← size, List.take_length]
  rw [show (Stream.opened j).pending = [] from rfl, List.nil_append, whole]
  dsimp only
  rw [if_neg (fun differs => differs rfl)]
  have flush := @only_fflush_written lib ⟨fs₁, t.world.cwd⟩ (Stream.opened j) image n (Nat.zero_le _)
  apply wp_only_bind flush (free _ _)
  apply wp_only_bind (only_fclose rfl) (free _ _)
  have view₃ := view₁.writeTmp tmp (splice (fs₁.data j) 0 image)
  obtain ⟨fs₄, renames, view₄, node₄⟩ := view₃.publish (w := ⟨_, t.world.cwd⟩) cwd tmp
  apply wp_only_bind renames (free _ _)
  rw [wp_ret]
  exact ⟨rfl, ⟨⟨_, view₄⟩, cwd⟩, node₄.trans node₁⟩

/-- The end of a transfer in which all calls succeed. -/
theorem transferCleanUp_holds (holds : v.Holds X t) {fp : Stream} (closed : fp.pending = [])
    (status : Int) :
    Wp (Alone lib) guard total (transferCleanUp (some fp) none status) t
      (fun r t' => r = status ∧ v.Holds X t') := by
  unfold transferCleanUp closeIf
  simp only [Prog.bind_eq, Prog.pure_eq, Prog.ret_bind]
  apply wp_only_bind (only_fclose closed) (free _ _)
  apply wp_only_bind (only_setRcvTimeout _) (free _ _)
  rw [if_pos rfl, wp_ret]
  exact ⟨rfl, holds.view, holds.cwd⟩

end Local

section Loop

variable {total : Prop}

/-- The head of the packet loop: the file has been received up to `m`. -/
structure Receives (v : Continuation lib) (i m : Nat) (st : Stream × UInt64 × UInt64)
    (s : Endpoint (SysTape lib) Phase) : Prop where
  pos : s.pos = Phase.rest (lib.md5.digest v.F) m st.2.1
  up : s.broken = false
  holds : v.Holds (received v.opened v.k.toNat v.F m) s.tape
  file : s.tape.world.fs.node v.site.data = some (.file i)
  stream : st.1 = { Stream.opened i with pos := m }
  size : st.2.1.toNat = v.F.length - m
  ahead : v.k.toNat ≤ m
  inside : m ≤ v.F.length

/-- The end of the loop, and of the function. -/
def Received (v : Continuation lib) (s : Endpoint (SysTape lib) Phase) : Prop :=
  s.pos = .verdict (lib.md5.digest v.F) ∧
    v.Holds (received v.opened v.k.toNat v.F v.F.length) s.tape

/-- Local calls are no business of the protocol. -/
theorem obeys_loc {p : Phase} {b : Bool} (t : SysTape lib) (e : Option (Sys lib.md5.Ctx)) :
    Obeys (transferProtocol .left v.terms) .right ⟨t, p, b⟩ (e.map .loc) := by
  cases e <;> trivial

theorem recvRound_receives {i m : Nat} {st : Stream × UInt64 × UInt64}
    {s : Endpoint (SysTape lib) Phase} (receives : Receives v i m st s) :
    Wp (endpointSem (transferProtocol .left v.terms) .right False (Alone lib))
      (Obeys (transferProtocol .left v.terms) .right) total
      (recvRound v.site.K v.site.mem (v.site.ckpt_resource_path v.h) v.site.resource_path st) s
      (LoopPost total (fun st s => ∃ m, Receives v i m st s) (fun st _ => st.2.1.toNat)
        st.2.1.toNat
        (fun out s => out.1.pending = [] ∧ out.2 = (none, true) ∧ v.Received s)) := by
  obtain ⟨t, pos, b⟩ := s
  obtain ⟨fp, size, offset⟩ := st
  obtain ⟨rfl, rfl, holds, file, rfl, size_eq, ahead, inside⟩ := receives
  dsimp only at *
  unfold recvRound
  simp only [Prog.bind_eq, Prog.pure_eq]
  apply wp_only_call_bind (only_remaining _) trivial
  by_cases zero : size = 0
  · subst zero
    have whole : m = v.F.length := by
      rw [show (0 : UInt64).toNat = 0 from rfl] at size_eq
      omega
    subst whole
    rw [if_pos rfl, wp_ret]
    exact ⟨rfl, rfl, Phase.rest_zero _ v.F.length, holds.view, holds.cwd⟩
  · rw [if_neg zero, Phase.rest_of_ne zero]
    apply wp_receive (p := .data (lib.md5.digest v.F) m size) (k := .packet)
      (carries_transfer .left v.terms) rfl rfl id
    · intro _
      exact exists_packet lib v.site.K v.F m size
    · intro packet may
      obtain ⟨data_size, out, decrypted, payload⟩ := may
      rw [Phase.next_data]
      dsimp only
      rw [decrypted]
      dsimp only
      -- the packet carries the next `n` bytes of the file
      obtain ⟨n, length⟩ : ∃ n, n = (chunk v.F m size).length := ⟨_, rfl⟩
      have size_n : packet.data_size.toNat = n := by
        rw [data_size, toNat_length_chunk, length]
      have counted := length_chunk v.F m size
      have some_bytes : 0 < size.toNat :=
        Nat.pos_of_ne_zero (fun none_left => zero (UInt64.toNat.inj none_left))
      have positive : BUFFER_SIZE = 1024 := rfl
      have bytes : out.toList.take n = (v.F.drop m).take n := by
        rw [length, payload]
        exact chunk_eq_take v.F m size
      have count : ((v.F.drop m).take n).length = n := by
        rw [length, ← chunk_eq_take]
      have fits : n ≤ out.toList.length := by
        rw [out.toList_length]
        omega
      obtain ⟨j, here, content⟩ := holds.data_file
      rw [file] at here
      cases here
      have reached : m ≤ (t.world.fs.data i).length := by
        rw [content, length_received offset_opened ahead inside]
        exact Nat.le_max_right _ _
      rw [size_n]
      apply wp_does_call_bind trivial (fun _ => does_answers _ _ (by simp))
      intro r w₂ does
      obtain ⟨j, rfl, rfl⟩ := fwrite_inside fits does
      rw [show (Stream.opened i).pending = [] from rfl, List.nil_append, bytes]
      dsimp only
      rw [if_neg (fun failed => failed.1 rfl)]
      have flush := @only_fflush_written lib t.world { Stream.opened i with pos := m }
        ((v.F.drop m).take n) j reached
      apply wp_only_call_bind flush trivial
      have add := received_add offset_opened ahead inside n
      have stored : splice (t.world.fs.data i) m ((v.F.drop m).take n) =
          received v.opened v.k.toNat v.F (m + n) := by
        rw [content, add]
      obtain ⟨c, view⟩ := holds.view
      have view₃ := view.writeData file (received v.opened v.k.toNat v.F (m + n))
      apply wp_loc_bind
      dsimp only
      rw [show (Stream.opened i).ino = i from rfl, stored, count]
      have holds₄ : ∀ log, v.Holds (received v.opened v.k.toNat v.F (m + n))
          ⟨⟨t.world.fs.setData i (received v.opened v.k.toNat v.F (m + n)), t.world.cwd⟩, log⟩ :=
        fun _ => ⟨⟨c, view₃⟩, holds.cwd⟩
      apply wp_mono (writeCheckpoint_holds obeys_loc (holds₄ _) (Checkpoint.length_image _ _))
      rintro _ t₅ ⟨rfl, holds₅, node⟩
      have left : (size - packet.data_size).toNat = size.toNat - n := by
        rw [UInt64.toNat_sub_of_le, size_n]
        apply UInt64.le_iff_toNat_le.mpr
        omega
      rw [if_pos rfl, wp_ret]
      refine ⟨⟨m + n, rfl, rfl, holds₅, node.trans file, rfl, ?_, ?_, ?_⟩, fun _ => ?_⟩
      · dsimp only
        omega
      · exact Nat.le_add_right_of_le ahead
      · omega
      · dsimp only
        omega
    · exact False.elim

theorem recvLoop_receives {i m : Nat} {st : Stream × UInt64 × UInt64}
    {s : Endpoint (SysTape lib) Phase} (receives : Receives v i m st s) :
    Wp (endpointSem (transferProtocol .left v.terms) .right False (Alone lib))
      (Obeys (transferProtocol .left v.terms) .right) total
      (Prog.iterate (recvRound v.site.K v.site.mem (v.site.ckpt_resource_path v.h)
        v.site.resource_path) st) s
      (fun out s => out.1.pending = [] ∧ out.2 = (none, true) ∧ v.Received s) := by
  apply wp_iterate (fun st s => ∃ m, Receives v i m st s) (fun st _ => st.2.1.toNat) ⟨m, receives⟩
  · intro st s _
    trivial
  · intro st s receives
    obtain ⟨m, receives⟩ := receives
    exact recvRound_receives receives

theorem recvfile_receives :
    Wp (endpointSem (transferProtocol .left v.terms) .right False (Alone lib))
      (Obeys (transferProtocol .left v.terms) .right) True
      (recvfile v.site.mem v.site.resource_path v.site.K v.k (v.site.ckpt_resource_path v.h)
        v.site.resource_path)
      ⟨⟨⟨v.fs, v.site.cwd⟩, []⟩, .header (lib.md5.digest v.F) v.k, false⟩
      (fun r s => r = 0 ∧ v.Received s) := by
  unfold recvfile
  simp only [Prog.bind_eq]
  apply wp_loc_bind
  apply wp_mono (openPartial_holds obeys_loc _ rfl)
  rintro _ t₁ ⟨i, rfl, holds, file⟩
  dsimp only
  rw [if_pos rfl]
  apply wp_receive (p := .header (lib.md5.digest v.F) v.k) (k := .resource)
    (carries_transfer .left v.terms) rfl rfl id
  · intro _
    exact ⟨⟨.ofNat v.F.length, pad _ [], pad _ []⟩, rfl⟩
  · intro resource may
    have all : resource.resource_size = .ofNat v.F.length := may
    have size : (resource.resource_size - v.k).toNat = v.F.length - v.k.toNat := by
      rw [all, UInt64.toNat_sub_of_le, small_file]
      apply UInt64.le_iff_toNat_le.mpr
      rw [small_file]
      exact v.inside
    rw [Phase.next_header]
    dsimp only
    apply wp_only_call_bind (only_setRcvTimeout _) trivial
    rw [if_pos rfl]
    apply wp_bind
    have holds : v.Holds (received v.opened v.k.toNat v.F v.k.toNat)
        (Tape.after (t₁.record (.recv .resource) (some resource))
          (.setRcvTimeout MAX_IO_TIME_OUT) true t₁.world) := by
      rw [received_self]
      exact ⟨holds.view, holds.cwd⟩
    apply wp_mono (recvLoop_receives
      ⟨rfl, rfl, holds, file, rfl, size, Nat.le_refl _, v.inside⟩)
    rintro ⟨fp, fckpt, ok⟩ ⟨t₄, p, b⟩ ⟨closed, same, rfl, holds⟩
    cases same
    rw [if_pos rfl]
    apply wp_endpoint_loc
    apply wp_mono (transferCleanUp_holds obeys_loc holds closed 0)
    rintro r t₅ ⟨rfl, holds⟩
    exact ⟨rfl, rfl, holds⟩
  · exact False.elim

end Loop

/-! ### The two together -/

/-- What the sender has come to. -/
abbrev Sent (v : Continuation lib) : Int → Endpoint (SysTape lib) Phase → Prop :=
  SentFile (fun _ => True) (· = v.sender) id (Excuse False False False v.F) v.F

theorem start_tracked :
    Pair.Tracked (transferProtocol .left v.terms) False (Alone lib) (Alone lib)
      (fun s a => Conforms (transferProtocol .left v.terms) id .left s a ∧
        ∀ e, a = some e → Speaks e)
      (Obeys (transferProtocol .left v.terms) .right) True True v.Sent
      (fun r s => r = 0 ∧ v.Received s) v.start (.header (lib.md5.digest v.F) v.k)
      (.header (lib.md5.digest v.F) v.k) where
  left := by
    obtain ⟨i, file, content⟩ := Store.fileAt_eq_some_iff.mp v.source
    have held : Holding (still : SysEnv lib) False (fun _ => True) (· = v.sender) v.zip
        (v.sender.target v.zip) i v.F [] := by
      refine ⟨steady_still _, ?_, Or.inr ⟨fun w _ => w.fs.root_dir, ?_⟩⟩
      · intro w same
        rw [same]
        exact ⟨rfl, file, content⟩
      · intro log w w' same root
        exact same ▸ root
    have small : v.F.length < 2 ^ 64 := v.small.trans (by decide)
    have accepts : Accepts lib v.site.K False v.terms v.F := by
      have some_offset : ∃ k, k = v.k := ⟨v.k, rfl⟩
      apply accepts_pinned small some_offset
      rintro k rfl
      exact v.inside
    have sends : Wp (endpointSem (transferProtocol .left v.terms) .left False (Alone lib))
        (Conforms (transferProtocol .left v.terms) id .left) True (sendfile v.zip v.site.K v.k)
        ⟨⟨v.sender, []⟩, .header (lib.md5.digest v.F) v.k, false⟩ v.Sent :=
      sendfile_wp (carries_transfer .left v.terms) accepts held (fun _ => id) trivial rfl (Or.inr rfl)
    have speaks : Wp (endpointSem (transferProtocol .left v.terms) .left False (Alone lib))
        (fun _ a => ∀ e, a = some e → Speaks e) False (sendfile v.zip v.site.K v.k)
        ⟨⟨v.sender, []⟩, .header (lib.md5.digest v.F) v.k, false⟩ (fun _ _ => True) := by
      apply wp_calls (sendfile_speaks _ _ _) (fun _ => True) trivial
      · intros
        trivial
      · rintro s e may _ _ ⟨⟩
        exact may
      · rintro s _ _ ⟨⟩
    apply wp_mono (wp_and sends speaks)
    intro r s both
    exact both.1
  right := recvfile_receives
  compat := Or.inl ⟨rfl, rfl⟩

/-- From the verdict on it is never the sender's turn. -/
theorem not_left_of_verdict {h : Hash} {ms : List (Frame Schema.Val)} {q : Phase}
    (path : (transferProtocol .left v.terms).Path .right (.verdict h) ms q) :
    (transferProtocol .left v.terms).turn q ≠ some .left := by
  cases ms with
  | nil =>
      cases path
      intro impossible
      cases impossible
  | cons m rest =>
      obtain ⟨_, allowed, path⟩ := path
      obtain ⟨kind, code⟩ := m
      cases kind with
      | code =>
          have ended := (Protocol.path_eq_nil path (by rintro ⟨⟩)).2
          rw [← ended]
          intro impossible
          cases impossible
      | _ => exact allowed.elim

/-- Where the two come to. -/
theorem completed (v : Continuation lib) :
    Acc (fun c' c => Pair.Step False (Alone lib) (Alone lib) c c') v.start ∧
      ∀ c, Pair.Reach False (Alone lib) (Alone lib) v.start c →
        (∀ c', ¬ Pair.Step False (Alone lib) (Alone lib) c c') →
          c.left = .ret 0 ∧ c.right = .ret 0 ∧ c.rightTape.world.fs.fileAt v.site.data =
            some (received v.opened v.k.toNat v.F v.F.length) := by
  constructor
  · exact Pair.acc_of_terminates (fun _ _ guard => guard.1.1) (fun _ _ guard => guard) trivial trivial
      start_tracked
  · intro c run stuck
    obtain ⟨p, q, tracked, _, _⟩ := Pair.track (fun _ _ guard => guard.1.1) (fun _ _ guard => guard)
      start_tracked run
    obtain ⟨upL, upR⟩ := Pair.reach_up id run rfl rfl
    have left : ∃ a, c.left = .ret a := by
      rcases Pair.waits_of_stuck trivial id upL tracked.left (fun c' step => stuck c' (.left step)) with
        returned | ⟨kd, k, waits, _⟩
      · exact returned
      · have here := tracked.left.sound _ _ .refl
        simp only [Pair.leftEnd, waits] at here
        exact absurd rfl (here.2 _ rfl kd)
    obtain ⟨a, left⟩ := left
    have sent := tracked.left.sound _ _ .refl
    simp only [Pair.leftEnd, left] at sent
    have ended : a = 0 ∧ p = .verdict (lib.md5.digest v.F) := by
      rcases sent.2 with ⟨zero, pos, _⟩ | ⟨_, excuse⟩
      · exact ⟨zero, pos⟩
      · have large : 2 ^ 63 ≤ v.F.length := by
          simpa [Excuse] using excuse
        exact absurd large (Nat.not_le.mpr v.small)
    obtain ⟨rfl, rfl⟩ := ended
    have still : ∀ c', ¬ Pair.LeftStep False (Alone lib) c.swap c' := by
      intro c' step
      exact stuck c'.swap (.right step)
    have right : ∃ b, c.right = .ret b := by
      rcases Pair.waits_of_stuck (c := c.swap) trivial id upR tracked.right still with
        returned | ⟨kd, k, waits, empty, turn⟩
      · exact returned
      · have compat := tracked.compat
        rw [show c.toRight = [] from empty] at compat
        rcases compat with behind | ahead
        · have same : q = .verdict (lib.md5.digest v.F) := behind.2
          rw [same] at turn
          cases turn
        · exact absurd turn (not_left_of_verdict ahead.2)
    obtain ⟨b, right⟩ := right
    have received := tracked.right.sound _ _ .refl
    simp only [Pair.rightEnd, right] at received
    obtain ⟨rfl, _, holds⟩ := received
    obtain ⟨_, view⟩ := holds.view
    exact ⟨left, right, view.data⟩

/-- What is left of the partial file behind the end of the file it has become. -/
theorem received_all :
    received v.opened v.k.toNat v.F v.F.length = v.F ++ v.opened.drop v.F.length := by
  have covered : v.k.toNat ≤ v.opened.length := offset_opened
  have same : v.opened.take v.k.toNat = v.F.take v.k.toNat := by
    unfold opened
    split
    · rename_i zero
      rw [zero]
      rfl
    · exact v.same
  have inside := v.inside
  rw [received, splice_of_le covered, same, List.take_length, List.take_append_drop,
    List.length_drop, Nat.add_sub_cancel' inside]

/-- A resumed transfer gives the sender's file exactly when it starts over after all, or the partial
    file is no longer than the sender's. -/
theorem completes_iff (v : Continuation lib) :
    v.Completes ↔ v.k = 0 ∨ v.P.length ≤ v.F.length := by
  have tail : received v.opened v.k.toNat v.F v.F.length = v.F ↔
      v.k = 0 ∨ v.P.length ≤ v.F.length := by
    rw [received_all, List.append_right_eq_self, List.drop_eq_nil_iff]
    unfold opened
    split
    · rename_i zero
      exact ⟨fun _ => Or.inl zero, fun _ => Nat.zero_le _⟩
    · rename_i resumes
      exact ⟨Or.inr, fun some_case => some_case.resolve_left resumes⟩
  obtain ⟨ends, comes⟩ := completed v
  rw [← tail]
  constructor
  · intro completes
    obtain ⟨c, run, stuck⟩ := Pair.exists_stop ends
    obtain ⟨_, _, equal⟩ := completes.equal c run stuck
    obtain ⟨_, _, content⟩ := comes c run stuck
    exact Option.some.inj (content.symm.trans equal)
  · intro whole
    refine ⟨ends, ?_⟩
    intro c run stuck
    obtain ⟨left, right, content⟩ := comes c run stuck
    exact ⟨left, right, content.trans (congrArg some whole)⟩

end Continuation

/-- A file system with a partial file at the small site. -/
def partStore (part : List UInt8) : Store Name UInt8 :=
  tree [letter 100, letter 99] [(smallSite.data, part)]

theorem partStore_ready : Ready smallSite (zeros _) (partStore [104, 105]) where
  cwd := by decide +kernel
  dir := by decide +kernel
  ckptDir := by decide +kernel
  parent := ⟨[letter 100], ⟨[97, 46, 122, 105, 112], by decide⟩, by decide +kernel, by decide +kernel⟩
  data := Or.inr ⟨0, by decide +kernel⟩
  ckpt := Or.inl (by decide +kernel)
  tmp := Or.inl (by decide +kernel)
  exdir t := tree_links _ _ _ t
  links l t link := (tree_links _ _ l t link).elim

/-- One byte at the sender, and two in the partial file, of which the first is to be kept. -/
def overlong : Continuation reference where
  site := smallSite
  h := zeros _
  sender := singleFile (letter 97) [104]
  zip := [97]
  fs := partStore [104, 105]
  k := 1
  F := [104]
  P := [104, 105]
  ready := partStore_ready
  source := by rfl
  target := by decide +kernel
  inside := by decide
  covered := by decide
  same := by decide
  near := by decide
  small := by decide

/-- The byte behind the end of the sender's file stays. -/
theorem overlong_keeps_tail : ¬ overlong.Completes := by
  intro completes
  have right := (Continuation.completes_iff overlong).mp completes
  exact absurd right (by decide)

end Filerail
