/-
Module: Filerail.Proofs.Checkpoints
Layer: Proofs
Purpose: The order of `filerail_recvfile`: the data first, then the checkpoint that speaks of it. The
  bytes of a stream may still be pending after a write, so the order is kept only as far as the flush
  of the data succeeds, which the code does not look at. As long as it does, no checkpoint is ahead of
  the data at any moment, whatever else fails and wherever the process is killed. A write of the data
  that fails ends the function.
Imports: Filerail.Proofs.Packets, Filerail.Proofs.Standing
Main exports: Streams, Arrival, Arrival.Behind, Arrival.Orderly, checkpoint_behind_data
-/
import Filerail.Proofs.Packets
import Filerail.Proofs.Standing

namespace Filerail

open FileStore ProgramLogic

variable {lib : Lib}

/-! ### A stream and its file -/

/-- Of the bytes `F` those in front of the position are in the file, with `R` behind them, and those
    from there up to `c` are pending. -/
structure Streams (F : List UInt8) (c : Nat) (R : List UInt8) (fp : Stream) (w : World) : Prop where
  reached : fp.pos ≤ c
  inside : c ≤ F.length
  disk : w.fs.data fp.ino = F.take fp.pos ++ R
  pending : fp.pending = (F.take c).drop fp.pos

namespace Streams

variable {F R : List UInt8} {c : Nat} {fp : Stream} {w : World}

/-- Some of what is pending goes to the file. -/
theorem flushed (streams : Streams F c R fp w) (j : Nat) :
    Streams F c (R.drop (fp.pending.take j).length) (fp.flushed fp.pending j)
      (w.flushed fp fp.pending j) := by
  obtain ⟨reached, inside, disk, pending⟩ := streams
  have size : (fp.pending.take j).length = min j (c - fp.pos) := by
    rw [pending, List.length_take, List.length_drop, List.length_take, Nat.min_eq_left inside]
  have front : (F.take fp.pos).length = fp.pos := by
    rw [List.length_take]
    omega
  have more : F.take fp.pos ++ fp.pending.take j = F.take (fp.pos + min j (c - fp.pos)) := by
    have joined := List.take_add (l := F.take c) (i := fp.pos) (j := j)
    rw [List.take_take, List.take_take, Nat.min_eq_left reached, ← pending] at joined
    rw [← joined]
    congr 1
    omega
  constructor
  · show fp.pos + _ ≤ c
    rw [size]
    omega
  · exact inside
  · show (w.fs.setData fp.ino _).data fp.ino = F.take (fp.pos + _) ++ _
    rw [Store.setData_data_self, disk, splice_of_le (by rw [List.length_append, front]; omega)]
    rw [List.take_append_of_le_length front.ge, List.take_of_length_le front.le, more, size]
    rw [← List.drop_drop, List.drop_left' front]
  · show fp.pending.drop j = (F.take c).drop (fp.pos + _)
    rw [size, pending, List.drop_drop]
    by_cases all : j ≤ c - fp.pos
    · rw [Nat.min_eq_left all]
    · rw [List.drop_of_length_le, List.drop_of_length_le]
      · rw [List.length_take]
        omega
      · rw [List.length_take]
        omega

/-- The next bytes are handed to the stream. -/
theorem write (streams : Streams F c R fp w) {n : Nat} (more : c + n ≤ F.length) :
    Streams F (c + n) R { fp with pending := fp.pending ++ (F.drop c).take n } w where
  reached := Nat.le_add_right_of_le streams.reached
  inside := more
  disk := streams.disk
  pending := by
    show fp.pending ++ _ = _
    rw [List.take_add, List.drop_append_of_le_length, streams.pending]
    rw [List.length_take, Nat.min_eq_left streams.inside]
    exact streams.reached

/-- The error indicator is of no account. -/
theorem fail (streams : Streams F c R fp w) (err : Bool) : Streams F c R { fp with err := err } w where
  reached := streams.reached
  inside := streams.inside
  disk := streams.disk
  pending := streams.pending

/-- What is in front of the position is in the file. -/
theorem covered (streams : Streams F c R fp w) {m : Nat} (behind : m ≤ fp.pos) :
    F.take m <+: w.fs.data fp.ino := by
  rw [streams.disk]
  exact (List.take_prefix_take_left behind).trans (List.prefix_append _ _)

/-- When nothing is pending, all is in the file. -/
theorem settled (streams : Streams F c R fp w) (empty : fp.pending = []) : fp.pos = c := by
  have none_left := streams.pending
  rw [empty] at none_left
  have size := congrArg List.length none_left
  rw [List.length_nil, List.length_drop, List.length_take, Nat.min_eq_left streams.inside] at size
  have reached := streams.reached
  omega

/-- Only the file of the stream matters. -/
theorem congr (streams : Streams F c R fp w) {w' : World}
    (same : w'.fs.data fp.ino = w.fs.data fp.ino) : Streams F c R fp w' where
  reached := streams.reached
  inside := streams.inside
  disk := same.trans streams.disk
  pending := streams.pending

end Streams

/-! ### What a stream may answer -/

section Answered

variable {t : SysTape lib} {fp : Stream} {w' : World}

/-- A write of bytes from inside the buffer hands some of them on, whether it fails or not. -/
theorem fwrite_hands {buffer : List UInt8} {n : Nat} {r : Nat × Stream} (fits : n ≤ buffer.length)
    (answer : Answers still True t (.fwrite fp buffer n) r w') :
    ∃ j err, w' = t.world.flushed fp (fp.pending ++ buffer.take n) j ∧
      r.2 = { fp.flushed (fp.pending ++ buffer.take n) j with err := err } := by
  obtain ⟨w, same, answer⟩ := answer
  obtain rfl : t.world = w := same
  rcases answer with ⟨bytes, j, size, same, rfl, rfl⟩ | ⟨_, bytes, j, m, size, same, _, rfl, rfl⟩
  · rw [List.take_of_length_le (by omega)] at same
    rw [same]
    exact ⟨j, fp.err, rfl, rfl⟩
  · rw [List.take_of_length_le (by omega)] at same
    rw [same]
    exact ⟨j, true, rfl, rfl⟩

theorem fflush_hands {r : Stream} (answer : Answers still True t (.fflush fp) r w') :
    ∃ j err, w' = t.world.flushed fp fp.pending j ∧
      r = { fp.flushed fp.pending j with err := err } := by
  obtain ⟨w, same, answer⟩ := answer
  obtain rfl : t.world = w := same
  rcases answer with ⟨rfl, rfl⟩ | ⟨_, j, rfl, rfl⟩
  · exact ⟨_, fp.err, rfl, rfl⟩
  · exact ⟨j, true, rfl, rfl⟩

theorem fclose_hands {r : Unit} (answer : Answers still True t (.fclose fp) r w') :
    ∃ j, w' = t.world.flushed fp fp.pending j := by
  obtain ⟨w, same, answer⟩ := answer
  obtain rfl : t.world = w := same
  rcases answer with rfl | ⟨_, j, rfl⟩
  · exact ⟨_, rfl⟩
  · exact ⟨j, rfl⟩

end Answered

/-! ### A transfer -/

/-- There is no symbolic link. -/
def Direct (fs : Store Name UInt8) (l : Loc) : Prop :=
  ∀ target, fs.node l ≠ some (.link target)

/-- A call of `filerail_recvfile`, and the bytes its peer is to send. The partial file and the temporary
    checkpoint are not symbolic links, and the names of the three files lead to different places. -/
structure Arrival where
  mem : Memory
  zip : CStr
  K : AESKeys
  offset : UInt64
  ckpt : CStr
  path : CStr
  world : World
  sent : List UInt8
  data_direct : Direct world.fs (world.loc zip)
  tmp_direct : Direct world.fs (world.loc (ckpt ++ dotTmp))
  data_ne_tmp : world.loc zip ≠ world.loc (ckpt ++ dotTmp)
  data_ne_ckpt : world.loc zip ≠ world.loc ckpt
  tmp_ne_ckpt : world.loc (ckpt ++ dotTmp) ≠ world.loc ckpt

namespace Arrival

variable (v : Arrival)

/-- The call. -/
def receive (lib : Lib) : P lib Int :=
  recvfile v.mem v.zip v.K v.offset v.ckpt v.path

/-- What the partial file is to hold: what is there up to the offset, and then what is sent. -/
def whole : List UInt8 :=
  ((v.world.fs.fileAt (v.world.loc v.zip)).getD []).take v.offset.toNat ++ v.sent

/-- The sender is well-behaved: its packets carry the bytes in order. -/
def Sends (lib : Lib) (l : Ledger) : SysEvent lib → Prop
  | ⟨.recv .packet, some data⟩ =>
      data.data_size.toNat ≤ BUFFER_SIZE ∧ l.payload + data.data_size.toNat ≤ v.sent.length ∧
        ∀ out, decrypt lib data.data_payload v.K = some out →
          out.toList.take data.data_size.toNat = (v.sent.drop l.payload).take data.data_size.toNat
  | _ => True

/-- Every flush of the partial file has handed over all there was. -/
def Flushes (log : List (SysEvent lib)) : Prop :=
  ∀ mode (opened fp out : Stream),
    (⟨.loc (.fopen v.zip mode), some opened⟩ : SysEvent lib) ∈ log →
    (⟨.loc (.fflush fp), out⟩ : SysEvent lib) ∈ log → fp.ino = opened.ino → out.pending = []

/-- Both in the run so far. -/
def Orderly (log : List (SysEvent lib)) : Prop :=
  Along (v.Sends lib) log ∧ v.Flushes log

/-- A checkpoint that this run has published, if it is complete, speaks of bytes that are in the
    partial file as they were sent. -/
def Behind (t : SysTape lib) : Prop :=
  Published t.log → ∀ img, t.world.fs.fileAt (t.world.loc v.ckpt) = some img →
    (img.take sizeofCheckpoint).length = sizeofCheckpoint →
      (Checkpoint.ofImage (img.take sizeofCheckpoint)).offset.toNat ≤ v.whole.length ∧
      ∃ X, t.world.fs.fileAt (t.world.loc v.zip) = some X ∧
        v.whole.take (Checkpoint.ofImage (img.take sizeofCheckpoint)).offset.toNat <+: X

theorem Orderly.earlier {event : SysEvent lib} {log : List (SysEvent lib)}
    (orderly : v.Orderly (event :: log)) : v.Orderly log := by
  refine ⟨orderly.1.2, ?_⟩
  intro mode opened fp out opens flushes
  exact orderly.2 mode opened fp out (List.mem_cons_of_mem _ opens) (List.mem_cons_of_mem _ flushes)

/-- The partial file is the inode `i` and holds the first `c` bytes, and no checkpoint speaks of
    more. -/
structure Ahead (i c : Nat) (t : SysTape lib) : Prop where
  cwd : t.world.cwd = v.world.cwd
  opened : ∃ mode fp, (⟨.loc (.fopen v.zip mode), some fp⟩ : SysEvent lib) ∈ t.log ∧ fp.ino = i
  node : t.world.fs.node (v.world.loc v.zip) = some (.file i)
  tmp : Direct t.world.fs (v.world.loc (v.ckpt ++ dotTmp))
  covered : v.whole.take c <+: t.world.fs.data i
  inside : c ≤ v.whole.length
  saved : Published t.log → ∀ img, t.world.fs.fileAt (v.world.loc v.ckpt) = some img →
    (img.take sizeofCheckpoint).length = sizeofCheckpoint →
      (Checkpoint.ofImage (img.take sizeofCheckpoint)).offset.toNat ≤ c

namespace Ahead

variable {v} {i c : Nat} {t : SysTape lib}

theorem loc (ahead : v.Ahead i c t) (path : CStr) : t.world.loc path = v.world.loc path := by
  rw [World.loc, ahead.cwd]
  rfl

theorem behind (ahead : v.Ahead i c t) : v.Behind t := by
  intro published img here complete
  rw [ahead.loc] at here ⊢
  have behind := ahead.saved published img here complete
  refine ⟨behind.trans ahead.inside, _, Store.fileAt_of_node ahead.node, ?_⟩
  exact (List.take_prefix_take_left behind).trans ahead.covered

/-- Any operation but a rename, with what it leaves. -/
theorem moved (ahead : v.Ahead i c t) {a : Act (Sys lib.md5.Ctx) Schema.Val}
    (other : ∀ p p', a ≠ .loc (.rename p p')) (r : a.Answer Sys.Resp) {w' : World} {c' : Nat}
    (cwd : w'.cwd = t.world.cwd) (node : w'.fs.node (v.world.loc v.zip) = some (.file i))
    (tmp : Direct w'.fs (v.world.loc (v.ckpt ++ dotTmp))) (more : c ≤ c')
    (inside : c' ≤ v.whole.length) (covered : v.whole.take c' <+: w'.fs.data i)
    (ckpt : w'.fs.fileAt (v.world.loc v.ckpt) = t.world.fs.fileAt (v.world.loc v.ckpt)) :
    v.Ahead i c' (⟨w', ⟨a, r⟩ :: t.log⟩ : SysTape lib) where
  cwd := cwd.trans ahead.cwd
  opened := by
    obtain ⟨mode, fp, member, same⟩ := ahead.opened
    exact ⟨mode, fp, List.mem_cons_of_mem _ member, same⟩
  node := node
  tmp := tmp
  covered := covered
  inside := inside
  saved published img here complete := by
    rw [ckpt] at here
    exact (ahead.saved (published.earlier other) img here complete).trans more

/-- An operation that leaves the world as it is. -/
theorem record (ahead : v.Ahead i c t) {a : Act (Sys lib.md5.Ctx) Schema.Val}
    (other : ∀ p p', a ≠ .loc (.rename p p')) (r : a.Answer Sys.Resp) :
    v.Ahead i c (t.record a r) :=
  ahead.moved other r rfl ahead.node ahead.tmp (Nat.le_refl c) ahead.inside ahead.covered rfl

/-- Bytes written to the partial file. -/
theorem writeData (ahead : v.Ahead i c t) {a : Act (Sys lib.md5.Ctx) Schema.Val}
    (other : ∀ p p', a ≠ .loc (.rename p p')) (r : a.Answer Sys.Resp) {bytes : List UInt8} {c' : Nat}
    (more : c ≤ c') (inside : c' ≤ v.whole.length) (covered : v.whole.take c' <+: bytes) :
    v.Ahead i c' (⟨{ t.world with fs := t.world.fs.setData i bytes }, ⟨a, r⟩ :: t.log⟩ :
      SysTape lib) := by
  refine ahead.moved other r ?_ ahead.node ahead.tmp more inside ?_ ?_
  · rfl
  · rw [Store.setData_data_self]
    exact covered
  · exact Store.fileAt_setData_ne ahead.node v.data_ne_ckpt.symm bytes

/-- Bytes written to the temporary checkpoint. -/
theorem writeTmp (ahead : v.Ahead i c t) {a : Act (Sys lib.md5.Ctx) Schema.Val}
    (other : ∀ p p', a ≠ .loc (.rename p p')) (r : a.Answer Sys.Resp) {j : Nat}
    (file : t.world.fs.node (v.world.loc (v.ckpt ++ dotTmp)) = some (.file j)) (bytes : List UInt8) :
    v.Ahead i c (⟨{ t.world with fs := t.world.fs.setData j bytes }, ⟨a, r⟩ :: t.log⟩ :
      SysTape lib) ∧ (t.world.fs.setData j bytes).data i = t.world.fs.data i := by
  have apart : i ≠ j := by
    rintro rfl
    exact v.data_ne_tmp (t.world.fs.ino_inj _ _ _ ahead.node file)
  have same := Store.setData_data_ne t.world.fs apart bytes
  constructor
  · refine ahead.moved other r ?_ ahead.node ahead.tmp (Nat.le_refl c) ahead.inside ?_ ?_
    · rfl
    · rw [same]
      exact ahead.covered
    · exact Store.fileAt_setData_ne file v.tmp_ne_ckpt.symm bytes
  · exact same

/-- The temporary checkpoint is opened, and empty. -/
theorem openTmp (ahead : v.Ahead i c t) {r : Option Stream} {w' : World}
    (answer : Answers still True t (.fopen (v.ckpt ++ dotTmp) .wb) r w') :
    v.Ahead i c (Tape.after t (.fopen (v.ckpt ++ dotTmp) .wb) r w') ∧
      w'.fs.data i = t.world.fs.data i ∧ ∀ fp, r = some fp → fp = .opened fp.ino ∧
        w'.fs.node (v.world.loc (v.ckpt ++ dotTmp)) = some (.file fp.ino) ∧
        w'.fs.data fp.ino = [] := by
  have other : ∀ p p', (Act.loc (.fopen (v.ckpt ++ dotTmp) .wb) : Act (Sys lib.md5.Ctx) Schema.Val) ≠
      .loc (.rename p p') := by
    intro p p' same
    cases same
  have target : t.world.target (v.ckpt ++ dotTmp) = v.world.loc (v.ckpt ++ dotTmp) := by
    rw [World.target, ahead.loc]
    exact Store.follow_eq_self ahead.tmp _
  obtain ⟨w, same, answer⟩ := answer
  obtain rfl : t.world = w := same
  have closed : w' = t.world → r = none → v.Ahead i c (Tape.after t (.fopen (v.ckpt ++ dotTmp) .wb) r w')
      ∧ w'.fs.data i = t.world.fs.data i ∧ ∀ fp, r = some fp → fp = .opened fp.ino ∧
        w'.fs.node (v.world.loc (v.ckpt ++ dotTmp)) = some (.file fp.ino) ∧
        w'.fs.data fp.ino = [] := by
    rintro rfl rfl
    refine ⟨ahead.record other none, rfl, ?_⟩
    intro fp impossible
    cases impossible
  rcases answer with (⟨j, file, rfl, rfl⟩ | ⟨j, fs', made, rfl, rfl⟩ | ⟨failed, _, _, rfl⟩) |
    ⟨_, failed, rfl⟩
  · rw [target] at file
    obtain ⟨ahead', same⟩ := ahead.writeTmp other (some (Stream.opened j)) file []
    refine ⟨ahead', same, ?_⟩
    rintro fp ⟨⟩
    exact ⟨rfl, file, Store.setData_data_self _ _ _⟩
  · rw [target] at made
    obtain ⟨rfl, _, _, _, data, _⟩ := Store.create_eq_some made
    obtain ⟨file, _, others⟩ := Store.create_spec made
    have same : fs'.data i = t.world.fs.data i := by
      rw [data, Function.update_of_ne]
      exact Nat.ne_of_lt (t.world.fs.ino_lt _ _ ahead.node)
    refine ⟨?_, same, ?_⟩
    · refine ahead.moved other _ ?_ (Store.create_keeps made ahead.node) (by simp [Direct, file])
        (Nat.le_refl c) ahead.inside ?_ (others _ v.tmp_ne_ckpt.symm).2
      · rfl
      · rw [same]
        exact ahead.covered
    · rintro fp ⟨⟩
      refine ⟨rfl, file, ?_⟩
      rw [show (Stream.opened t.world.fs.next).ino = t.world.fs.next from rfl, data,
        Function.update_self]
  · exact closed rfl failed
  · exact closed rfl failed

/-- The temporary checkpoint takes the place of the checkpoint, or nothing happens. -/
theorem publish (ahead : v.Ahead i c t) {r : Bool} {w' : World}
    (answer : Answers still True t (.rename (v.ckpt ++ dotTmp) v.ckpt) r w')
    (modest : ∀ img, t.world.fs.fileAt (v.world.loc (v.ckpt ++ dotTmp)) = some img →
      (img.take sizeofCheckpoint).length = sizeofCheckpoint →
        (Checkpoint.ofImage (img.take sizeofCheckpoint)).offset.toNat ≤ c) :
    v.Ahead i c (Tape.after t (.rename (v.ckpt ++ dotTmp) v.ckpt) r w') ∧
      w'.fs.data i = t.world.fs.data i := by
  obtain ⟨w, same, answer⟩ := answer
  obtain rfl : t.world = w := same
  have opened : ∃ mode fp, (⟨.loc (.fopen v.zip mode), some fp⟩ : SysEvent lib) ∈
      (Tape.after t (.rename (v.ckpt ++ dotTmp) v.ckpt) r w').log ∧ fp.ino = i := by
    obtain ⟨mode, fp, member, same⟩ := ahead.opened
    exact ⟨mode, fp, List.mem_cons_of_mem _ member, same⟩
  have failed : r = false → w' = t.world →
      v.Ahead i c (Tape.after t (.rename (v.ckpt ++ dotTmp) v.ckpt) r w') ∧
        w'.fs.data i = t.world.fs.data i := by
    rintro rfl rfl
    refine ⟨⟨ahead.cwd, opened, ahead.node, ahead.tmp, ahead.covered, ahead.inside, ?_⟩, rfl⟩
    rintro ⟨a, b, published⟩
    apply ahead.saved
    cases published with
    | tail _ member => exact ⟨a, b, member⟩
  rcases answer with (⟨fs', moved, rfl, rfl⟩ | ⟨_, no, same⟩) | ⟨_, no, same⟩
  · rw [ahead.loc, ahead.loc] at moved
    obtain ⟨gone, _, content, others⟩ := Store.rename_spec v.tmp_ne_ckpt moved
    obtain ⟨_, _, _, _, data, _⟩ := Store.rename_eq_some v.tmp_ne_ckpt moved
    refine ⟨⟨ahead.cwd, opened, ?_, by simp [Direct, gone], ?_, ahead.inside, ?_⟩, congrFun data i⟩
    · rw [← ahead.node]
      exact (others _ v.data_ne_tmp v.data_ne_ckpt).1
    · show _ <+: fs'.data i
      rw [data]
      exact ahead.covered
    · intro _ img here
      apply modest
      rw [← content]
      exact here
  · exact failed no same
  · exact failed no same

end Ahead

/-! ### The checkpoint -/

/-- Most operations are of no account for what is to come. -/
theorem ledger_quiet {e : Sys lib.md5.Ctx} (quiet : Quiet e) (r : e.Resp) (log : List (SysEvent lib)) :
    ledger (⟨.loc e, r⟩ :: log) = ledger log := by
  cases e with
  | fwrite fp buffer n => exact quiet.elim
  | remaining size => exact quiet.elim
  | _ => rfl

/-- The checkpoint is not part of the payload. -/
theorem payload_checkpoint {f : Stream} {buffer : List UInt8} (other : buffer.length ≠ BUFFER_SIZE)
    (n : Nat) (r : Nat × Stream) (log : List (SysEvent lib)) :
    (ledger (⟨.loc (.fwrite f buffer n), r⟩ :: log)).payload = (ledger log).payload := by
  simp only [ledger, Ledger.enter, if_neg other]

variable {v}

/-- What is not a rename. -/
theorem not_rename {e : Sys lib.md5.Ctx} (other : ∀ p p', e ≠ .rename p p') (p p' : CStr) :
    (Act.loc e : Act (Sys lib.md5.Ctx) Schema.Val) ≠ .loc (.rename p p') := by
  intro same
  exact other p p' (Act.loc.inj same)

/-- The stream of the temporary checkpoint, which has been handed `n` bytes of the record. The partial
    file holds `d`. -/
structure Saving (v : Arrival) (i c : Nat) (d image : List UInt8) (n : Nat) (fp : Stream)
    (t : SysTape lib) : Prop where
  ahead : v.Ahead i c t
  same : t.world.fs.data i = d
  file : t.world.fs.node (v.world.loc (v.ckpt ++ dotTmp)) = some (.file fp.ino)
  streams : Streams image n [] fp t.world

namespace Saving

variable {i c n : Nat} {d image : List UInt8} {fp : Stream} {t : SysTape lib}

/-- More of the record is handed to the stream. -/
theorem write (saving : Saving v i c d image 0 fp t) (size : n ≤ image.length) :
    Saving v i c d image n { fp with pending := fp.pending ++ image.take n } t where
  ahead := saving.ahead
  same := saving.same
  file := saving.file
  streams := by
    have streams := saving.streams.write (n := n) (by omega)
    rw [Nat.zero_add, List.drop_zero] at streams
    exact streams

/-- Some of what is pending goes to the file. -/
theorem hands (saving : Saving v i c d image n fp t) {e : Sys lib.md5.Ctx}
    (other : ∀ p p', e ≠ .rename p p') (r : e.Resp) (j : Nat) (err : Bool) :
    Saving v i c d image n { fp.flushed fp.pending j with err := err }
      (Tape.after t e r (t.world.flushed fp fp.pending j)) := by
  obtain ⟨ahead, same⟩ := saving.ahead.writeTmp (not_rename other) r saving.file
    (splice (t.world.fs.data fp.ino) fp.pos (fp.pending.take j))
  constructor
  · exact ahead
  · exact same.trans saving.same
  · exact saving.file
  · have streams := (saving.streams.flushed j).fail err
    rw [List.drop_nil] at streams
    exact streams

theorem writes (saving : Saving v i c d image 0 fp t) (size : n ≤ image.length)
    {r : Nat × Stream} {w' : World} (answer : Answers still True t (.fwrite fp image n) r w') :
    Saving v i c d image n r.2 (Tape.after t (.fwrite fp image n) r w') := by
  obtain ⟨j, err, rfl, stream⟩ := fwrite_hands size answer
  rw [stream]
  exact (saving.write size).hands (e := .fwrite fp image n) (by simp) r j err

theorem flushes (saving : Saving v i c d image n fp t) {r : Stream} {w' : World}
    (answer : Answers still True t (.fflush fp) r w') :
    Saving v i c d image n r (Tape.after t (.fflush fp) r w') := by
  obtain ⟨j, err, rfl, rfl⟩ := fflush_hands answer
  exact saving.hands (e := .fflush fp) (by simp) _ j err

theorem closes (saving : Saving v i c d image n fp t) {r : Unit} {w' : World}
    (answer : Answers still True t (.fclose fp) r w') :
    ∃ fp', Saving v i c d image n fp' (Tape.after t (.fclose fp) r w') := by
  obtain ⟨j, rfl⟩ := fclose_hands answer
  exact ⟨_, saving.hands (e := .fclose fp) (by simp) r j fp.err⟩

/-- What can be published. -/
theorem modest (saving : Saving v i c d image n fp t) (size : image.length = sizeofCheckpoint)
    (modest : (Checkpoint.ofImage image).offset.toNat ≤ c) (img : List UInt8)
    (here : t.world.fs.fileAt (v.world.loc (v.ckpt ++ dotTmp)) = some img)
    (complete : (img.take sizeofCheckpoint).length = sizeofCheckpoint) :
    (Checkpoint.ofImage (img.take sizeofCheckpoint)).offset.toNat ≤ c := by
  rw [Store.fileAt_of_node saving.file] at here
  obtain rfl := Option.some.inj here
  have disk := saving.streams.disk
  rw [List.append_nil] at disk
  rw [disk] at complete ⊢
  rw [List.length_take, List.length_take] at complete
  rw [List.take_take, Nat.min_eq_left (by omega), ← size, List.take_length]
  exact modest

end Saving

/-- A checkpoint of what is in the partial file is written and published, or something fails. -/
theorem writeCheckpoint_ahead {i c : Nat} {t : SysTape lib} (ahead : v.Ahead i c t)
    {image : List UInt8} (size : image.length = sizeofCheckpoint)
    (modest : (Checkpoint.ofImage image).offset.toNat ≤ c) :
    Wp (tapeSem still (sysSem lib True)) (fun t _ => v.Behind t) False
      (writeCheckpoint image (v.ckpt ++ dotTmp) v.ckpt) t
      (fun out t' => v.Ahead i c t' ∧ t'.world.fs.data i = t.world.fs.data i ∧
        (ledger t'.log).payload = (ledger t.log).payload ∧
        ∀ f, out.1 = some f →
          t'.world.fs.node (v.world.loc (v.ckpt ++ dotTmp)) = some (.file f.ino)) := by
  have other : image.length ≠ BUFFER_SIZE := by
    rw [size]
    decide
  unfold writeCheckpoint
  simp only [Prog.bind_eq, Prog.pure_eq]
  apply wp_sys_bind ahead.behind False.elim
  intro r w₁ answer
  obtain ⟨ahead₁, same₁, opened⟩ := ahead.openTmp answer
  cases r with
  | none =>
      apply wp_ret.mpr
      refine ⟨ahead₁, same₁, rfl, ?_⟩
      intro f impossible
      cases impossible
  | some fckpt =>
      obtain ⟨start, file₁, empty⟩ := opened fckpt rfl
      have saving₁ : Saving v i c (t.world.fs.data i) image 0 fckpt
          (Tape.after t (.fopen (v.ckpt ++ dotTmp) .wb) (some fckpt) w₁) := by
        refine ⟨ahead₁, same₁, file₁, ?_⟩
        rw [start]
        exact ⟨Nat.le_refl 0, Nat.zero_le _, empty, by simp [Stream.opened]⟩
      dsimp only
      apply wp_sys_bind ahead₁.behind False.elim
      intro r w₂ answer
      have saving₂ := saving₁.writes size.ge answer
      have payload₂ := payload_checkpoint (f := fckpt) other sizeofCheckpoint r
        (Tape.after t (.fopen (v.ckpt ++ dotTmp) .wb) (some fckpt) w₁).log
      obtain ⟨written, fckpt₂⟩ := r
      dsimp only
      by_cases all : written = sizeofCheckpoint
      · rw [if_neg (not_not_intro all)]
        apply wp_sys_bind saving₂.ahead.behind False.elim
        intro fckpt₃ w₃ answer
        have saving₃ := saving₂.flushes answer
        apply wp_sys_bind saving₃.ahead.behind False.elim
        intro closed w₄ answer
        obtain ⟨fckpt₄, saving₄⟩ := saving₃.closes answer
        apply wp_sys_bind saving₄.ahead.behind False.elim
        intro renamed w₅ answer
        obtain ⟨ahead₅, same₅⟩ := saving₄.ahead.publish answer (saving₄.modest size modest)
        apply wp_ret.mpr
        refine ⟨ahead₅, same₅.trans saving₄.same, payload₂, ?_⟩
        intro f impossible
        cases impossible
      · rw [if_pos all]
        apply wp_ret.mpr
        refine ⟨saving₂.ahead, saving₂.same, payload₂, ?_⟩
        rintro f ⟨⟩
        exact saving₂.file

/-! ### The data -/

/-- The partial file has all of the front that the checkpoints may speak of. -/
def Reaches (v : Arrival) : Prop :=
  v.offset.toNat ≤ ((v.world.fs.fileAt (v.world.loc v.zip)).getD []).length

/-- The next bytes of the whole are the next bytes sent. -/
theorem Reaches.next (reaches : v.Reaches) (p : Nat) :
    v.whole.drop (v.offset.toNat + p) = v.sent.drop p := by
  rw [whole, ← List.drop_drop, List.drop_left']
  rw [List.length_take]
  exact Nat.min_eq_left reaches

theorem Reaches.length (reaches : v.Reaches) : v.whole.length = v.offset.toNat + v.sent.length := by
  rw [whole, List.length_append, List.length_take]
  congr 1
  exact Nat.min_eq_left reaches

/-- The stream of the partial file, which has been handed the bytes up to `m`; the first `c` are known
    to be in the file. -/
structure Pouring (v : Arrival) (i c m : Nat) (fp : Stream) (t : SysTape lib) : Prop where
  ahead : v.Ahead i c t
  ino : fp.ino = i
  behind : c ≤ fp.pos
  streams : ∃ R, Streams v.whole m R fp t.world

namespace Pouring

variable {i c m : Nat} {fp : Stream} {t : SysTape lib}

theorem record (pouring : Pouring v i c m fp t) {a : Act (Sys lib.md5.Ctx) Schema.Val}
    (other : ∀ p p', a ≠ .loc (.rename p p')) (r : a.Answer Sys.Resp) :
    Pouring v i c m fp (t.record a r) where
  ahead := pouring.ahead.record other r
  ino := pouring.ino
  behind := pouring.behind
  streams := pouring.streams

/-- A call that leaves the world as it is. -/
theorem reads (pouring : Pouring v i c m fp t) {e : Sys lib.md5.Ctx} (reads : Reads e) {r : e.Resp}
    {w' : World} (answer : Answers still True t e r w') :
    Pouring v i c m fp (Tape.after t e r w') := by
  obtain ⟨w, same, answer⟩ := answer
  obtain rfl : t.world = w := same
  obtain rfl := reads_same reads answer
  apply pouring.record
  apply not_rename
  rintro p p' rfl
  exact reads

/-- Some of what is pending goes to the file. -/
theorem hands (pouring : Pouring v i c m fp t) {e : Sys lib.md5.Ctx}
    (other : ∀ p p', e ≠ .rename p p') (r : e.Resp) (j : Nat) (err : Bool) :
    Pouring v i c m { fp.flushed fp.pending j with err := err }
      (Tape.after t e r (t.world.flushed fp fp.pending j)) := by
  obtain ⟨ahead, ino, behind, R, streams⟩ := pouring
  have flushed := (streams.flushed j).fail err
  have onward : c ≤ (fp.flushed fp.pending j).pos := behind.trans (Nat.le_add_right _ _)
  have covered := flushed.covered onward
  subst ino
  constructor
  · refine ahead.writeData (not_rename other) r (Nat.le_refl c) ahead.inside ?_
    have data : (t.world.flushed fp fp.pending j).fs.data fp.ino =
        splice (t.world.fs.data fp.ino) fp.pos (fp.pending.take j) := Store.setData_data_self _ _ _
    rw [← data]
    exact covered
  · rfl
  · exact onward
  · exact ⟨_, flushed⟩

theorem writes (pouring : Pouring v i c m fp t) {buffer : List UInt8} {n : Nat}
    (fits : n ≤ buffer.length) (next : buffer.take n = (v.whole.drop m).take n)
    (more : m + n ≤ v.whole.length) {r : Nat × Stream} {w' : World}
    (answer : Answers still True t (.fwrite fp buffer n) r w') :
    Pouring v i c (m + n) r.2 (Tape.after t (.fwrite fp buffer n) r w') := by
  obtain ⟨j, err, rfl, stream⟩ := fwrite_hands fits answer
  obtain ⟨ahead, ino, behind, R, streams⟩ := pouring
  have handed : Pouring v i c (m + n) { fp with pending := fp.pending ++ buffer.take n } t := by
    rw [next]
    exact ⟨ahead, ino, behind, R, streams.write more⟩
  rw [stream]
  exact handed.hands (e := .fwrite fp buffer n) (by simp) r j err

theorem flushes (pouring : Pouring v i c m fp t) {r : Stream} {w' : World}
    (answer : Answers still True t (.fflush fp) r w') :
    Pouring v i c m r (Tape.after t (.fflush fp) r w') := by
  obtain ⟨j, err, rfl, rfl⟩ := fflush_hands answer
  exact pouring.hands (e := .fflush fp) (by simp) _ j err

theorem closes (pouring : Pouring v i c m fp t) {r : Unit} {w' : World}
    (answer : Answers still True t (.fclose fp) r w') :
    v.Ahead i c (Tape.after t (.fclose fp) r w') := by
  obtain ⟨j, rfl⟩ := fclose_hands answer
  exact (pouring.hands (e := .fclose fp) (by simp) r j fp.err).ahead

/-- With nothing pending, all that has been handed over is in the file. -/
theorem settled (pouring : Pouring v i c m fp t) (empty : fp.pending = []) :
    Pouring v i m m fp t := by
  obtain ⟨ahead, ino, behind, R, streams⟩ := pouring
  have place := streams.settled empty
  subst ino
  refine ⟨⟨ahead.cwd, ahead.opened, ahead.node, ahead.tmp, streams.covered place.ge, streams.inside,
    ?_⟩, rfl, place.ge, R, streams⟩
  intro published img here complete
  exact (ahead.saved published img here complete).trans (behind.trans place.le)

/-- What does not touch the partial file. -/
theorem aside (pouring : Pouring v i c m fp t) {t' : SysTape lib} (ahead : v.Ahead i c t')
    (same : t'.world.fs.data i = t.world.fs.data i) : Pouring v i c m fp t' := by
  obtain ⟨_, ino, behind, R, streams⟩ := pouring
  subst ino
  exact ⟨ahead, rfl, behind, R, streams.congr same⟩

end Pouring

/-! ### The loop -/

section Loop

variable {i : Nat} {t : SysTape lib}

/-- What is said of every moment of a run. -/
def Watched (v : Arrival) (t : SysTape lib) {A : Type} (_ : A) : Prop :=
  v.Orderly t.log → v.Behind t

/-- Once the sender or a flush has failed, nothing is said any more. -/
theorem wp_disorderly {α : Type} {p : P lib α} {post : α → SysTape lib → Prop}
    (disorderly : ¬ v.Orderly t.log) (done : ∀ a t', ¬ v.Orderly t'.log → post a t') :
    Wp (soloSem (tapeSem still (sysSem lib True))) (fun t e => Watched v t e) False p t post := by
  apply wp_invariant (fun t : SysTape lib => ¬ v.Orderly t.log) disorderly
  · intro t a r t' disorderly answer orderly
    rw [solo_logs answer] at orderly
    exact disorderly orderly.earlier
  · intro t e disorderly orderly
    exact absurd orderly disorderly
  · exact done

/-- The head of the loop. -/
structure Stepping (v : Arrival) (i : Nat) (st : Stream × UInt64 × UInt64) (t : SysTape lib) :
    Prop where
  pouring : Pouring v i (v.offset.toNat + (ledger t.log).payload)
    (v.offset.toNat + (ledger t.log).payload) st.1 t
  clean : st.1.pending = []
  offset : st.2.2.toNat ≤ v.offset.toNat + (ledger t.log).payload

/-- What the loop leaves. -/
def Emptied (v : Arrival) (i : Nat) (out : Stream × Option Stream × Bool) (t : SysTape lib) : Prop :=
  v.Orderly t.log → (∃ c m, Pouring v i c m out.1 t) ∧
    ∀ f, out.2.1 = some f →
      t.world.fs.node (v.world.loc (v.ckpt ++ dotTmp)) = some (.file f.ino)

theorem Pouring.emptied {c m : Nat} {fp : Stream} (pouring : Pouring v i c m fp t) (ok : Bool) :
    Emptied v i (fp, none, ok) t := by
  intro _
  refine ⟨⟨c, m, pouring⟩, ?_⟩
  intro f impossible
  cases impossible

/-- The payload counts what is handed to the partial file. -/
theorem payload_data {f : Stream} {buffer : List UInt8} (full : buffer.length = BUFFER_SIZE) (n : Nat)
    (r : Nat × Stream) (log : List (SysEvent lib)) :
    (ledger (⟨.loc (.fwrite f buffer n), r⟩ :: log)).payload = (ledger log).payload + n := by
  simp only [ledger, Ledger.enter, if_pos full]

/-- One packet goes to the partial file, and then the checkpoint is written. -/
theorem recvPacket_behind (reaches : v.Reaches) {fp : Stream} {size offset : UInt64}
    {data : DataPacket} {out : Buffer}
    (pouring : Pouring v i (v.offset.toNat + (ledger t.log).payload)
      (v.offset.toNat + (ledger t.log).payload) fp t)
    (below : offset.toNat ≤ v.offset.toNat + (ledger t.log).payload)
    (few : data.data_size.toNat ≤ BUFFER_SIZE)
    (more : (ledger t.log).payload + data.data_size.toNat ≤ v.sent.length)
    (next : out.toList.take data.data_size.toNat =
      (v.sent.drop (ledger t.log).payload).take data.data_size.toNat) :
    Wp (soloSem (tapeSem still (sysSem lib True))) (fun t e => Watched v t e) False
      (Prog.bind (Prog.loc (fwrite fp out.toList data.data_size.toNat)) (fun r =>
        if r.1 ≠ data.data_size.toNat ∧ r.2.err = true then Prog.ret (Sum.inr (r.2, none, false))
        else
          Prog.bind (Prog.loc (fflush r.2)) (fun fp =>
            Prog.bind (Prog.loc (writeCheckpoint (Checkpoint.image
                { offset := offset + data.data_size, resource_path := strcpy v.mem.path v.path }
                v.mem.padding) (v.ckpt ++ dotTmp) v.ckpt)) (fun saved =>
              if saved.2 = true then
                Prog.ret (Sum.inl (fp, size - data.data_size, offset + data.data_size))
              else Prog.ret (Sum.inr (fp, saved.1, false)))))) t
      (LoopPost False (fun st t => v.Orderly t.log → Stepping v i st t) (fun _ _ => 0) 0
        (Emptied v i)) := by
  have full : out.toList.length = BUFFER_SIZE := out.toList_length
  have whole : v.offset.toNat + (ledger t.log).payload + data.data_size.toNat ≤ v.whole.length := by
    rw [reaches.length]
    omega
  rw [← reaches.next] at next
  apply wp_solo_bind (fun _ => pouring.ahead.behind) False.elim
  intro r w₁ answer
  have pouring₁ := pouring.writes (full.ge.trans' few) next whole answer
  have payload₁ := payload_data (f := fp) full data.data_size.toNat r t.log
  split
  · apply wp_ret.mpr
    exact pouring₁.emptied false
  · apply wp_solo_bind (fun _ => pouring₁.ahead.behind) False.elim
    intro fp₂ w₂ answer
    have pouring₂ := pouring₁.flushes answer
    by_cases empty : fp₂.pending = []
    · have pouring₃ := pouring₂.settled empty
      have modest : (Checkpoint.ofImage (Checkpoint.image
          { offset := offset + data.data_size, resource_path := strcpy v.mem.path v.path }
          v.mem.padding)).offset.toNat ≤
            v.offset.toNat + (ledger t.log).payload + data.data_size.toNat := by
        rw [Checkpoint.ofImage_image]
        have sum := Nat.mod_le (offset.toNat + data.data_size.toNat) (2 ^ 64)
        rw [← UInt64.toNat_add] at sum
        exact sum.trans (by omega)
      apply wp_bind
      apply wp_solo_loc
      refine wp_guard_mono (wp_mono (writeCheckpoint_ahead pouring₃.ahead
        (Checkpoint.length_image _ _) modest) ?_) (fun _ _ behind _ => behind)
      rintro ⟨fckpt, ok⟩ t₄ ⟨ahead₄, same, payload₄, file⟩
      have pouring₄ := pouring₃.aside ahead₄ same
      have payload : (ledger t₄.log).payload = (ledger t.log).payload + data.data_size.toNat :=
        payload₄.trans payload₁
      cases ok with
      | true =>
          rw [if_pos rfl]
          apply wp_ret.mpr
          refine ⟨fun _ => ?_, False.elim⟩
          constructor
          · rw [payload, ← Nat.add_assoc]
            exact pouring₄
          · exact empty
          · rw [payload, ← Nat.add_assoc]
            rw [Checkpoint.ofImage_image] at modest
            exact modest
      | false =>
          rw [if_neg Bool.false_ne_true]
          apply wp_ret.mpr
          intro _
          exact ⟨⟨_, _, pouring₄⟩, file⟩
    · -- the flush has left bytes behind
      have disorderly : ¬ v.Orderly (Tape.after (Tape.after t
          (.fwrite fp out.toList data.data_size.toNat) r w₁) (.fflush r.2) fp₂ w₂).log := by
        intro orderly
        obtain ⟨mode, opened, member, same⟩ := pouring₁.ahead.opened
        apply empty
        apply orderly.2 mode opened r.2 fp₂ (List.mem_cons_of_mem _ member) List.mem_cons_self
        rw [pouring₁.ino, same]
      apply wp_disorderly disorderly
      intro a t' disorderly
      cases a with
      | inl st => exact ⟨fun orderly => absurd orderly disorderly, False.elim⟩
      | inr out => exact fun orderly => absurd orderly disorderly

theorem recvRound_behind (reaches : v.Reaches) {st : Stream × UInt64 × UInt64}
    (stepping : v.Orderly t.log → Stepping v i st t) :
    Wp (soloSem (tapeSem still (sysSem lib True))) (fun t e => Watched v t e) False
      (recvRound v.K v.mem v.ckpt v.path st) t
      (LoopPost False (fun st t => v.Orderly t.log → Stepping v i st t) (fun _ _ => 0) 0
        (Emptied v i)) := by
  have lost : ∀ (a : _ ⊕ _) (t : SysTape lib), ¬ v.Orderly t.log →
      LoopPost False (fun st t => v.Orderly t.log → Stepping v i st t) (fun _ _ => 0) 0
        (Emptied v i) a t := by
    intro a t disorderly
    cases a with
    | inl st => exact ⟨fun orderly => absurd orderly disorderly, False.elim⟩
    | inr out => exact fun orderly => absurd orderly disorderly
  by_cases orderly : v.Orderly t.log
  · obtain ⟨pouring, clean, below⟩ := stepping orderly
    obtain ⟨fp, size, offset⟩ := st
    dsimp only at pouring clean below
    unfold recvRound
    simp only [Prog.bind_eq, Prog.pure_eq]
    apply wp_solo_bind (fun _ => pouring.ahead.behind) False.elim
    intro _ w₁ answer
    have pouring₁ := pouring.reads (e := .remaining size) trivial answer
    by_cases zero : size = 0
    · rw [if_pos zero]
      apply wp_ret.mpr
      exact pouring₁.emptied true
    · rw [if_neg zero]
      apply wp_solo_recv (fun _ => pouring₁.ahead.behind)
      intro data
      have pouring₂ := pouring₁.record (a := .recv .packet) (by simp) data
      cases data with
      | none =>
          apply wp_ret.mpr
          exact pouring₂.emptied false
      | some data =>
          dsimp only
          by_cases orderly₂ : v.Orderly ((Tape.after t (.remaining size) () w₁).record
              (.recv .packet) (some data)).log
          · obtain ⟨few, more, next⟩ := orderly₂.1.1
            cases decoded : decrypt lib data.data_payload v.K with
            | none =>
                apply wp_ret.mpr
                exact pouring₂.emptied false
            | some out => exact recvPacket_behind reaches pouring₂ below few more (next out decoded)
          · exact wp_disorderly orderly₂ lost
  · exact wp_disorderly orderly lost

theorem recvLoop_behind (reaches : v.Reaches) {st : Stream × UInt64 × UInt64}
    (stepping : Stepping v i st t) :
    Wp (soloSem (tapeSem still (sysSem lib True))) (fun t e => Watched v t e) False
      (Prog.iterate (recvRound v.K v.mem v.ckpt v.path) st) t (Emptied v i) := by
  apply wp_iterate (fun st t => v.Orderly t.log → Stepping v i st t) (fun _ _ => 0)
    (fun _ => stepping)
  · intro st t stepping orderly
    exact (stepping orderly).pouring.ahead.behind
  · intro st t stepping
    exact recvRound_behind reaches stepping

end Loop

/-! ### Around the loop -/

/-- Nothing has been published, and nothing written to the partial file. -/
structure Before (t : SysTape lib) : Prop where
  published : ¬ Published t.log
  payload : (ledger t.log).payload = 0

/-- A call that is not a write and not a rename. -/
def Aside (e : Sys lib.md5.Ctx) : Prop :=
  Quiet e ∧ ∀ p p', e ≠ .rename p p'

namespace Before

variable {t : SysTape lib}

theorem behind (before : Before t) : v.Behind t := by
  intro published
  exact absurd published before.published

theorem aside (before : Before t) {e : Sys lib.md5.Ctx} (aside : Aside e) (r : e.Resp)
    (w' : World) : Before (Tape.after t e r w') where
  published published := before.published (published.earlier (not_rename aside.2))
  payload := by
    show (ledger (_ :: t.log)).payload = 0
    rw [ledger_quiet aside.1]
    exact before.payload

theorem program {α : Type} (before : Before t) {p : L lib α} (calls : p.Calls Aside) :
    Wp (tapeSem still (sysSem lib True)) (fun t _ => v.Behind t) False p t
      (fun _ t' => Before t') := by
  apply wp_calls calls Before before
  · rintro t' e r _ aside before ⟨_, w', _, _, rfl⟩
    exact before.aside aside r w'
  · intro t' e _ before
    exact before.behind
  · intro t' before
    exact before.behind

/-- The partial file has been opened and has the front that the offset says. -/
theorem pouring (before : Before t) (cwd : t.world.cwd = v.world.cwd) {i n : Nat} {mode : Mode}
    (opened : (⟨.loc (.fopen v.zip mode), some (Stream.opened i)⟩ : SysEvent lib) ∈ t.log)
    (node : t.world.fs.node (v.world.loc v.zip) = some (.file i))
    (tmp : Direct t.world.fs (v.world.loc (v.ckpt ++ dotTmp))) (inside : n ≤ v.whole.length)
    (front : v.whole.take n <+: t.world.fs.data i) :
    Pouring v i n n { Stream.opened i with pos := n } t := by
  constructor
  · constructor
    · exact cwd
    · exact ⟨mode, _, opened, rfl⟩
    · exact node
    · exact tmp
    · exact front
    · exact inside
    · intro published
      exact absurd published before.published
  · rfl
  · exact Nat.le_refl n
  · obtain ⟨R, whole⟩ := front
    refine ⟨R, ?_⟩
    constructor
    · exact Nat.le_refl n
    · exact inside
    · exact whole.symm
    · show [] = (v.whole.take n).drop n
      rw [List.drop_of_length_le]
      exact List.length_take_le _ _

end Before

theorem transferCleanUp_aside (fp fckpt : Option Stream) (status : Int) :
    (transferCleanUp fp fckpt status : L lib Int).Calls Aside := by
  apply transferCleanUp_calls
  · intro fp
    exact ⟨trivial, by simp⟩
  · intro seconds
    exact ⟨trivial, by simp⟩

/-- What the opening of the partial file leaves. -/
structure Opens (v : Arrival) (out : Option Stream × Bool) (t : SysTape lib) : Prop where
  before : Before t
  pouring : out.2 = true → ∀ fp, out.1 = some fp → v.Reaches ∧ fp.pending = [] ∧
    Pouring v fp.ino v.offset.toNat v.offset.toNat fp t

/-- The seek has passed `n` bytes. -/
def Seeking (v : Arrival) (st : BitVec 32 × Option Stream) (t : SysTape lib) : Prop :=
  Before t ∧ t.world = v.world ∧ ∃ n, n ≤ counterStop v.offset.toNat ∧ st.1 = .ofNat 32 n ∧
    ∀ fp, st.2 = some fp → ∃ i mode,
      (⟨.loc (.fopen v.zip mode), some (Stream.opened i)⟩ : SysEvent lib) ∈ t.log ∧
        v.world.fs.node (v.world.loc v.zip) = some (.file i) ∧ n ≤ (v.world.fs.data i).length ∧
        fp = { Stream.opened i with pos := n }

section Opening

variable {t : SysTape lib}

theorem seekRound_ahead (small : v.offset.toNat ≤ 2 ^ 31) {st : BitVec 32 × Option Stream}
    (seeking : Seeking v st t) :
    Wp (tapeSem still (sysSem lib True)) (fun t _ => v.Behind t) False (seekRound v.offset st) t
      (LoopPost False (Seeking v) (fun _ _ => 0) 0 (Opens v)) := by
  obtain ⟨i, fp⟩ := st
  obtain ⟨before, here, n, below, same, place⟩ := seeking
  have same : i = .ofNat 32 n := same
  subst same
  unfold seekRound
  simp only [Prog.bind_eq, Prog.pure_eq, counter_reads v.offset.toNat_lt below]
  rw [counterStop_of_le small] at below ⊢
  by_cases more : n < v.offset.toNat
  · rw [if_pos more]
    cases fp with
    | none =>
        apply wp_sys_bind before.behind False.elim
        intro dead
        cases dead
    | some fp =>
        obtain ⟨i, mode, opened, node, inside, rfl⟩ := place fp rfl
        apply wp_sys_bind before.behind False.elim
        rintro ⟨c, fp'⟩ w' ⟨w, same, answer⟩
        obtain rfl : t.world = w := same
        have after := before.aside (e := .fgetc { Stream.opened i with pos := n })
          ⟨trivial, by simp⟩ (c, fp') w'
        cases c with
        | none =>
            apply wp_ret.mpr
            refine ⟨after, ?_⟩
            intro wrong
            cases wrong
        | some c =>
            apply wp_ret.mpr
            refine ⟨?_, False.elim⟩
            rcases answer with (⟨c', byte, found, rfl⟩ | ⟨_, wrong, _⟩) | ⟨_, wrong, _⟩
            · cases found
              refine ⟨after, here, n + 1, ?_, ?_, ?_⟩
              · rw [counterStop_of_le small]
                exact more
              · rw [BitVec.ofNat_add]
                rfl
              · rintro fp ⟨⟩
                refine ⟨i, mode, List.mem_cons_of_mem _ opened, node, ?_, rfl⟩
                rw [here] at byte
                exact (List.getElem?_eq_some_iff.mp byte).1
            · cases wrong
            · cases wrong
  · rw [if_neg more]
    apply wp_ret.mpr
    refine ⟨before, ?_⟩
    rintro _ fp' found
    obtain rfl : fp = some fp' := found
    obtain ⟨i, mode, opened, node, inside, rfl⟩ := place fp' rfl
    obtain rfl : n = v.offset.toNat := by omega
    have reaches : v.Reaches := by
      unfold Reaches
      rw [Store.fileAt_of_node node]
      exact inside
    refine ⟨reaches, rfl, ?_⟩
    have whole : v.whole.take v.offset.toNat = (v.world.fs.data i).take v.offset.toNat := by
      rw [Arrival.whole, Store.fileAt_of_node node, List.take_append_of_le_length]
      · rw [List.take_take, Nat.min_self]
        rfl
      · rw [List.length_take]
        exact (Nat.min_eq_left inside).ge
    apply before.pouring (congrArg World.cwd here) opened
    · rw [here]
      exact node
    · rw [here]
      exact v.tmp_direct
    · rw [reaches.length]
      exact Nat.le_add_right _ _
    · rw [whole, here]
      exact List.take_prefix _ _

theorem openPartial_ahead (small : v.offset.toNat ≤ 2 ^ 31) :
    Wp (tapeSem still (sysSem lib True)) (fun t _ => v.Behind t) False
      (openPartial v.zip v.offset) ⟨v.world, []⟩ (Opens v) := by
  have before : Before (⟨v.world, []⟩ : SysTape lib) := by
    refine ⟨?_, rfl⟩
    rintro ⟨a, b, impossible⟩
    cases impossible
  unfold openPartial
  simp only [Prog.bind_eq, Prog.pure_eq]
  by_cases start : v.offset = 0
  · have zero : v.offset.toNat = 0 := congrArg UInt64.toNat start
    have target : v.world.target v.zip = v.world.loc v.zip := Store.follow_eq_self v.data_direct _
    rw [if_pos start]
    apply wp_sys_bind before.behind False.elim
    rintro r w' ⟨w, same, answer⟩
    obtain rfl : v.world = w := same
    have after := before.aside (e := .fopen v.zip .wb) ⟨trivial, by simp⟩ r w'
    have pours : ∀ i : Nat, r = some (Stream.opened i) → w'.cwd = v.world.cwd →
        w'.fs.node (v.world.loc v.zip) = some (.file i) →
        Direct w'.fs (v.world.loc (v.ckpt ++ dotTmp)) →
        Opens v (r, true) (Tape.after ⟨v.world, []⟩ (.fopen v.zip .wb) r w') := by
      rintro i rfl cwd node tmp
      refine ⟨after, ?_⟩
      rintro _ fp ⟨⟩
      have reaches : v.Reaches := by
        unfold Reaches
        rw [zero]
        exact Nat.zero_le _
      refine ⟨reaches, rfl, ?_⟩
      rw [zero]
      have opened : (⟨.loc (.fopen v.zip .wb), some (Stream.opened i)⟩ : SysEvent lib) ∈
          (Tape.after ⟨v.world, []⟩ (.fopen v.zip .wb) (some (Stream.opened i)) w').log :=
        List.mem_cons_self
      exact after.pouring cwd opened node tmp (Nat.zero_le _) List.nil_prefix
    apply wp_ret.mpr
    rcases answer with (⟨i, file, opened, rfl⟩ | ⟨i, fs', made, opened, rfl⟩ | ⟨none_opened, _⟩) |
      ⟨_, none_opened, _⟩
    · rw [target] at file
      exact pours i opened rfl file v.tmp_direct
    · rw [target] at made
      obtain ⟨file, _, others⟩ := Store.create_spec made
      refine pours i opened rfl file ?_
      have same := (others _ v.data_ne_tmp.symm).1
      show Direct fs' _
      unfold Direct
      rw [same]
      exact v.tmp_direct
    · refine ⟨after, ?_⟩
      rintro _ fp rfl
      cases none_opened
    · refine ⟨after, ?_⟩
      rintro _ fp rfl
      cases none_opened
  · rw [if_neg start]
    apply wp_sys_bind before.behind False.elim
    rintro r w' ⟨w, same, answer⟩
    obtain rfl : v.world = w := same
    have after := before.aside (e := .fopen v.zip .rPlusB) ⟨trivial, by simp⟩ r w'
    have target : v.world.target v.zip = v.world.loc v.zip := Store.follow_eq_self v.data_direct _
    apply wp_iterate (Seeking v) (fun _ _ => 0)
    · have unopened : r = none → w' = v.world →
          Seeking v (0, r) (Tape.after ⟨v.world, []⟩ (.fopen v.zip .rPlusB) r w') := by
        rintro rfl rfl
        refine ⟨after, rfl, 0, Nat.zero_le _, rfl, ?_⟩
        intro fp impossible
        cases impossible
      rcases answer with (⟨i, file, rfl, rfl⟩ | ⟨none_opened, _, same⟩) | ⟨_, none_opened, same⟩
      · refine ⟨after, rfl, 0, Nat.zero_le _, rfl, ?_⟩
        rintro fp ⟨⟩
        rw [target] at file
        exact ⟨i, .rPlusB, List.mem_cons_self, file, Nat.zero_le _, rfl⟩
      · exact unopened none_opened same
      · exact unopened none_opened same
    · intro st t seeking
      exact seeking.1.behind
    · intro st t seeking
      exact seekRound_ahead small seeking

end Opening

section Closing

variable {i : Nat} {t : SysTape lib}

/-- A local part at which the checkpoint is behind at all moments. -/
theorem wp_watched {α : Type} {p : L lib α} {post : α → SysTape lib → Prop}
    (wp : Wp (tapeSem still (sysSem lib True)) (fun t _ => v.Behind t) False p t post) :
    Wp (soloSem (tapeSem still (sysSem lib True))) (fun t e => Watched v t e) False p.loc t post := by
  apply wp_solo_loc
  apply wp_guard_mono wp
  intro t' e behind _
  exact behind

/-- A checkpoint that could not be written is closed. -/
theorem closeIf_ahead {c : Nat} (ahead : v.Ahead i c t) {fckpt : Option Stream}
    (file : ∀ f, fckpt = some f →
      t.world.fs.node (v.world.loc (v.ckpt ++ dotTmp)) = some (.file f.ino)) :
    Wp (tapeSem still (sysSem lib True)) (fun t _ => v.Behind t) False (closeIf fckpt) t
      (fun _ t' => v.Ahead i c t') := by
  cases fckpt with
  | none =>
      apply wp_ret.mpr
      exact ahead
  | some f =>
      apply wp_sys ahead.behind False.elim
      intro r w' answer
      obtain ⟨j, rfl⟩ := fclose_hands answer
      exact (ahead.writeTmp (not_rename (e := .fclose f) (by simp)) r (file f rfl) _).1

/-- The end of a call that has been in the loop. -/
theorem transferCleanUp_behind {out : Stream × Option Stream × Bool} (emptied : Emptied v i out t)
    (status : Int) :
    Wp (soloSem (tapeSem still (sysSem lib True))) (fun t e => Watched v t e) False
      (transferCleanUp (some out.1) out.2.1 status).loc t (fun r t' => Watched v t' r) := by
  by_cases orderly : v.Orderly t.log
  · obtain ⟨⟨c, m, pouring⟩, file⟩ := emptied orderly
    have closes : Wp (tapeSem still (sysSem lib True)) (fun t _ => v.Behind t) False
        (transferCleanUp (some out.1) out.2.1 status) t (fun _ t' => v.Behind t') := by
      unfold transferCleanUp
      simp only [Prog.bind_eq, Prog.pure_eq]
      unfold closeIf
      apply wp_sys_bind pouring.ahead.behind False.elim
      intro r w₁ answer
      have ahead₁ := pouring.closes answer
      have still_there : ∀ f, out.2.1 = some f →
          w₁.fs.node (v.world.loc (v.ckpt ++ dotTmp)) = some (.file f.ino) := by
        obtain ⟨j, rfl⟩ := fclose_hands answer
        exact file
      apply wp_bind
      apply wp_mono (closeIf_ahead ahead₁ still_there)
      intro _ t₂ ahead₂
      apply wp_sys_bind ahead₂.behind False.elim
      rintro ok w₃ ⟨w, same, answer⟩
      obtain rfl : t₂.world = w := same
      obtain rfl := reads_same (e := .setRcvTimeout TIME_OUT) trivial answer
      have ahead₃ := ahead₂.record (not_rename (e := .setRcvTimeout TIME_OUT) (by simp)) ok
      split
      · exact wp_ret.mpr ahead₃.behind
      · exact wp_ret.mpr ahead₃.behind
    apply wp_mono (wp_watched closes)
    intro r t' behind _
    exact behind
  · apply wp_disorderly orderly
    intro r t' disorderly orderly
    exact absurd orderly disorderly

/-- The end of a call that has not come to the loop. -/
theorem Before.cleanUp (before : Before t) (fp fckpt : Option Stream) (status : Int) :
    Wp (soloSem (tapeSem still (sysSem lib True))) (fun t e => Watched v t e) False
      (transferCleanUp fp fckpt status).loc t (fun r t' => Watched v t' r) := by
  apply wp_mono (wp_watched (before.program (transferCleanUp_aside fp fckpt status)))
  intro r t' before _
  exact before.behind

end Closing

theorem recvfile_behind (small : v.offset.toNat ≤ 2 ^ 31) :
    Wp (soloSem (tapeSem still (sysSem lib True))) (fun t e => Watched v t e) False (v.receive lib)
      ⟨v.world, []⟩ (fun r t' => Watched v t' r) := by
  unfold receive recvfile
  simp only [Prog.bind_eq]
  apply wp_bind
  apply wp_mono (wp_watched (openPartial_ahead small))
  rintro ⟨fp, moved⟩ t₁ ⟨before, pours⟩
  dsimp only at pours ⊢
  cases moved with
  | false => exact before.cleanUp fp none (-1)
  | true =>
      rw [if_pos rfl]
      cases fp with
      | none => exact before.cleanUp none none (-1)
      | some fp =>
          obtain ⟨reaches, clean, pouring⟩ := pours rfl fp rfl
          apply wp_solo_recv (fun _ => before.behind)
          intro resource
          have before₂ : Before (t₁.record (.recv .resource) resource) := by
            constructor
            · intro published
              exact before.published (published.earlier (by simp))
            · rw [← before.payload]
              cases resource <;> rfl
          have pouring₂ := pouring.record (a := .recv .resource) (by simp) resource
          cases resource with
          | none => exact before₂.cleanUp (some fp) none (-1)
          | some resource =>
              apply wp_solo_bind (fun _ => before₂.behind) False.elim
              intro ok w₃ answer
              have before₃ := before₂.aside (e := .setRcvTimeout MAX_IO_TIME_OUT)
                ⟨trivial, by simp⟩ ok w₃
              have pouring₃ := pouring₂.reads (e := .setRcvTimeout MAX_IO_TIME_OUT) trivial answer
              cases ok with
              | false => exact before₃.cleanUp (some fp) none (-1)
              | true =>
                  rw [if_pos rfl]
                  have stepping : Stepping v fp.ino (fp, resource.resource_size - v.offset, v.offset)
                      (Tape.after (t₁.record (.recv .resource) (some resource))
                        (.setRcvTimeout MAX_IO_TIME_OUT) true w₃) := by
                    constructor
                    · rw [before₃.payload]
                      exact pouring₃
                    · exact clean
                    · exact Nat.le_add_right _ _
                  apply wp_bind
                  apply wp_mono (recvLoop_behind reaches stepping)
                  rintro ⟨fp', fckpt, ok⟩ t₄ emptied
                  exact transferCleanUp_behind emptied _

/-! ### Writes that fail -/

/-- Behind a write that has failed nothing is published. -/
def Unharmed (l : Ledger) : SysEvent lib → Prop
  | ⟨.loc (.rename _ _), _⟩ => l.whole = true
  | _ => True

/-- What the log says of the writes: nothing has been published behind one that failed, and `whole`
    tells whether one has. -/
structure Tally (whole : Bool) (t : SysTape lib) : Prop where
  unharmed : Along Unharmed t.log
  whole : (ledger t.log).whole = whole

namespace Tally

variable {env : SysEnv lib} {faulty : Prop} {whole : Bool} {t : SysTape lib}

/-- A call that is not a write. -/
theorem quiet (tally : Tally true t) {e : Sys lib.md5.Ctx} (quiet : Quiet e) (r : e.Resp)
    (w' : World) : Tally true (Tape.after t e r w') := by
  constructor
  · refine ⟨?_, tally.unharmed⟩
    cases e with
    | rename path path' => exact tally.whole
    | _ => trivial
  · show (ledger (_ :: t.log)).whole = true
    rw [ledger_quiet quiet]
    exact tally.whole

theorem aside (tally : Tally whole t) {e : Sys lib.md5.Ctx} (aside : Aside e) (r : e.Resp)
    (w' : World) : Tally whole (Tape.after t e r w') := by
  constructor
  · refine ⟨?_, tally.unharmed⟩
    cases e with
    | rename path path' => exact absurd rfl (aside.2 path path')
    | _ => trivial
  · show (ledger (_ :: t.log)).whole = whole
    rw [ledger_quiet aside.1]
    exact tally.whole

/-- A write, which is complete or not. -/
theorem write (tally : Tally true t) (fp : Stream) (buffer : List UInt8) (n : Nat)
    (r : Nat × Stream) (w' : World) :
    Tally (r.1 == n) (Tape.after t (.fwrite fp buffer n) r w') := by
  constructor
  · exact ⟨trivial, tally.unharmed⟩
  · show ((ledger t.log).enter (⟨.loc (.fwrite fp buffer n), r⟩ : SysEvent lib)).whole = _
    simp only [Ledger.enter]
    split
    · rw [tally.whole, Bool.true_and]
    · rw [tally.whole, Bool.true_and]

theorem program {α : Type} (tally : Tally whole t) {p : L lib α} (calls : p.Calls Aside) :
    Wp (tapeSem env (sysSem lib faulty)) (fun t _ => Along Unharmed t.log) False p t
      (fun _ t' => Tally whole t') := by
  apply wp_calls calls (Tally whole) tally
  · rintro t' e r _ aside tally ⟨_, w', _, _, rfl⟩
    exact tally.aside aside r w'
  · intro t' e _ tally
    exact tally.unharmed
  · intro t' tally
    exact tally.unharmed

end Tally

/-- What a call leaves. -/
def Owned (r : Int) (t : SysTape lib) : Prop :=
  Along Unharmed t.log ∧ ((ledger t.log).whole = false → r = -1)

section Harm

variable {env : SysEnv lib} {faulty : Prop} {t : SysTape lib}

theorem openPartial_aside (path : CStr) (offset : UInt64) :
    (openPartial path offset : L lib _).Calls Aside := by
  apply openPartial_calls
  · intro path mode
    exact ⟨trivial, by simp⟩
  · intro fp
    exact ⟨trivial, by simp⟩
  · exact ⟨trivial, by simp⟩

theorem writeCheckpoint_unharmed (tally : Tally true t) (image : List UInt8) (tmp ckpt : CStr) :
    Wp (tapeSem env (sysSem lib faulty)) (fun t _ => Along Unharmed t.log) False
      (writeCheckpoint image tmp ckpt) t
      (fun out t' => ∃ whole, Tally whole t' ∧ (out.2 = true → whole = true)) := by
  unfold writeCheckpoint
  simp only [Prog.bind_eq, Prog.pure_eq]
  apply wp_sys_bind tally.unharmed False.elim
  intro fckpt w₁ _
  have tally₁ := tally.quiet (e := .fopen tmp .wb) trivial fckpt w₁
  cases fckpt with
  | none =>
      apply wp_ret.mpr
      refine ⟨true, tally₁, ?_⟩
      intro _
      rfl
  | some fckpt =>
      apply wp_sys_bind tally₁.unharmed False.elim
      rintro ⟨written, fckpt'⟩ w₂ _
      have tally₂ := tally₁.write fckpt image sizeofCheckpoint (written, fckpt') w₂
      dsimp only at tally₂ ⊢
      by_cases all : written = sizeofCheckpoint
      · subst all
        rw [if_neg (not_not_intro rfl)]
        rw [beq_self_eq_true] at tally₂
        apply wp_sys_bind tally₂.unharmed False.elim
        intro fckpt'' w₃ _
        have tally₃ := tally₂.quiet (e := .fflush fckpt') trivial fckpt'' w₃
        apply wp_sys_bind tally₃.unharmed False.elim
        intro closed w₄ _
        have tally₄ := tally₃.quiet (e := .fclose fckpt'') trivial closed w₄
        apply wp_sys_bind tally₄.unharmed False.elim
        intro renamed w₅ _
        have tally₅ := tally₄.quiet (e := .rename tmp ckpt) trivial renamed w₅
        apply wp_ret.mpr
        refine ⟨true, tally₅, ?_⟩
        intro _
        rfl
      · rw [if_pos all]
        apply wp_ret.mpr
        refine ⟨_, tally₂, ?_⟩
        intro wrong
        cases wrong

/-- What the loop leaves: it goes on only as long as all writes have been complete. -/
def Spent (ok : Bool) (t : SysTape lib) : Prop :=
  ∃ whole, Tally whole t ∧ (ok = true → whole = true)

theorem recvRound_unharmed (tally : Tally true t) {K : AESKeys} {mem : Memory} {ckpt path : CStr}
    {st : Stream × UInt64 × UInt64} :
    Wp (soloSem (tapeSem env (sysSem lib faulty))) (fun t _ => Along Unharmed t.log) False
      (recvRound K mem ckpt path st) t
      (LoopPost False (fun _ t => Tally true t) (fun _ _ => 0) 0
        (fun (out : Stream × Option Stream × Bool) t => Spent out.2.2 t)) := by
  obtain ⟨fp, size, offset⟩ := st
  unfold recvRound
  simp only [Prog.bind_eq, Prog.pure_eq]
  apply wp_solo_bind tally.unharmed False.elim
  intro _ w₁ _
  have tally₁ : Tally true (Tape.after t (.remaining size) () w₁) :=
    ⟨⟨trivial, tally.unharmed⟩, tally.whole⟩
  by_cases zero : size = 0
  · rw [if_pos zero]
    apply wp_ret.mpr
    exact ⟨true, tally₁, fun _ => rfl⟩
  · rw [if_neg zero]
    apply wp_solo_recv tally₁.unharmed
    intro data
    have tally₂ : Tally true ((Tape.after t (.remaining size) () w₁).record (.recv .packet) data) :=
      ⟨⟨trivial, tally₁.unharmed⟩, tally₁.whole⟩
    cases data with
    | none =>
        apply wp_ret.mpr
        exact ⟨true, tally₂, fun _ => rfl⟩
    | some data =>
        dsimp only
        cases decrypt lib data.data_payload K with
        | none =>
            apply wp_ret.mpr
            exact ⟨true, tally₂, fun _ => rfl⟩
        | some out =>
            apply wp_solo_bind tally₂.unharmed False.elim
            rintro ⟨written, fp₁⟩ w₃ answer
            have tally₃ := tally₂.write fp out.toList data.data_size.toNat (written, fp₁) w₃
            rcases fwrite_answer answer with ⟨all, _⟩ | ⟨short, broken⟩
            · dsimp only at all tally₃ ⊢
              subst all
              rw [if_neg (fun wrong => wrong.1 rfl)]
              rw [beq_self_eq_true] at tally₃
              apply wp_solo_bind tally₃.unharmed False.elim
              intro fp₂ w₄ _
              have tally₄ := tally₃.quiet (e := .fflush fp₁) trivial fp₂ w₄
              apply wp_bind
              apply wp_solo_loc
              apply wp_mono (writeCheckpoint_unharmed tally₄ _ _ _)
              rintro ⟨fckpt, ok⟩ t₅ ⟨whole, tally₅, complete⟩
              cases ok with
              | true =>
                  obtain rfl := complete rfl
                  apply wp_ret.mpr
                  exact ⟨tally₅, False.elim⟩
              | false =>
                  apply wp_ret.mpr
                  exact ⟨whole, tally₅, fun wrong => nomatch wrong⟩
            · dsimp only at short broken ⊢
              rw [if_pos ⟨short, broken⟩]
              apply wp_ret.mpr
              exact ⟨_, tally₃, fun wrong => nomatch wrong⟩

/-- The end of a call: it answers `-1` if a write has failed. -/
theorem Tally.cleanUp {whole : Bool} (tally : Tally whole t) (fp fckpt : Option Stream)
    {status : Int} (failed : whole = false → status = -1) :
    Wp (soloSem (tapeSem env (sysSem lib faulty))) (fun t _ => Along Unharmed t.log) False
      (transferCleanUp fp fckpt status).loc t Owned := by
  have returns : Wp (tapeSem env (sysSem lib faulty)) (fun _ _ => True) False
      (transferCleanUp fp fckpt status) t (fun r _ => r = status ∨ r = -1) :=
    transferCleanUp_returns (fun _ _ _ => trivial) fp fckpt status
  apply wp_solo_loc
  apply wp_mono (wp_guard_mono
    (wp_and (tally.program (transferCleanUp_aside fp fckpt status)) returns) (fun _ _ both => both.1))
  rintro r t' ⟨tally, returned⟩
  refine ⟨tally.unharmed, ?_⟩
  intro harmed
  rw [tally.whole] at harmed
  rcases returned with rfl | rfl
  · exact failed harmed
  · rfl

theorem recvfile_owned (mem : Memory) (zip : CStr) (K : AESKeys) (k : UInt64) (ckpt path : CStr)
    (w : World) :
    Wp (soloSem (tapeSem env (sysSem lib faulty))) (fun t _ => Along Unharmed t.log) False
      (recvfile mem zip K k ckpt path) ⟨w, []⟩ Owned := by
  have tally : Tally true (⟨w, []⟩ : SysTape lib) := ⟨trivial, rfl⟩
  have failed : ∀ {whole : Bool}, whole = false → (-1 : Int) = -1 := fun _ => rfl
  unfold recvfile
  simp only [Prog.bind_eq]
  apply wp_bind
  apply wp_solo_loc
  apply wp_mono (tally.program (openPartial_aside zip k))
  rintro ⟨fp, moved⟩ t₁ tally₁
  cases moved with
  | false => exact tally₁.cleanUp fp none failed
  | true =>
      rw [if_pos rfl]
      cases fp with
      | none => exact tally₁.cleanUp none none failed
      | some fp =>
          apply wp_solo_recv tally₁.unharmed
          intro resource
          have tally₂ : Tally true (t₁.record (.recv .resource) resource) := by
            refine ⟨⟨trivial, tally₁.unharmed⟩, ?_⟩
            rw [← tally₁.whole]
            cases resource <;> rfl
          cases resource with
          | none => exact tally₂.cleanUp (some fp) none failed
          | some resource =>
              apply wp_solo_bind tally₂.unharmed False.elim
              intro ok w₃ _
              have tally₃ := tally₂.quiet (e := .setRcvTimeout MAX_IO_TIME_OUT) trivial ok w₃
              cases ok with
              | false => exact tally₃.cleanUp (some fp) none failed
              | true =>
                  rw [if_pos rfl]
                  have rounds : Wp (soloSem (tapeSem env (sysSem lib faulty)))
                      (fun t _ => Along Unharmed t.log) False
                      (Prog.iterate (recvRound K mem ckpt path) (fp, resource.resource_size - k, k))
                      (Tape.after (t₁.record (.recv .resource) (some resource))
                        (.setRcvTimeout MAX_IO_TIME_OUT) true w₃)
                      (fun out t => Spent out.2.2 t) := by
                    apply wp_iterate (fun _ t => Tally true t) (fun _ _ => 0) tally₃
                    · intro st t tally
                      exact tally.unharmed
                    · intro st t tally
                      exact recvRound_unharmed tally
                  apply wp_bind
                  apply wp_mono rounds
                  rintro ⟨fp', fckpt, ok⟩ t₄ ⟨whole, tally₄, complete⟩
                  apply tally₄.cleanUp
                  rintro rfl
                  cases ok with
                  | true => cases complete rfl
                  | false => rfl

end Harm

/-- Whatever fails and wherever the process is killed: as long as the sender keeps to its packets and
    each flush of the partial file hands over what is pending, a complete checkpoint that this run has
    published speaks only of bytes that are in the partial file as they were sent. Nothing is
    published behind a write that failed, and then the function returns `-1`. -/
theorem checkpoint_behind_data (v : Arrival) (small : v.offset.toNat ≤ 2 ^ 31)
    {c : P lib Int × SysTape lib}
    (run : Prog.Reach (soloSem (tapeSem still (sysSem lib True))) (v.receive lib, ⟨v.world, []⟩) c) :
    (v.Orderly c.2.log → v.Behind c.2) ∧ Along Unharmed c.2.log ∧
      ∀ r, c.1 = .ret r → (ledger c.2.log).whole = false → r = -1 := by
  obtain ⟨p, t⟩ := c
  have watched := Wp.sound (recvfile_behind small) p t run
  have owned := Wp.sound (recvfile_owned v.mem v.zip v.K v.offset v.ckpt v.path v.world) p t run
  cases p with
  | ret r =>
      refine ⟨watched, owned.1, ?_⟩
      rintro _ ⟨⟩
      exact owned.2
  | call e next => exact ⟨watched, owned, fun r impossible => nomatch impossible⟩
  | loop body x next => exact ⟨watched, owned, fun r impossible => nomatch impossible⟩

/-! ### One byte

A transfer of one byte on a machine where a call may fail, against a peer that announces the byte and
sends it. The write leaves it pending. -/

instance (l : Ledger) : (event : SysEvent lib) → Decidable (v.Sends lib l event)
  | ⟨.recv .packet, some data⟩ =>
      have : Decidable (∀ out ∈ decrypt lib data.data_payload v.K,
          out.toList.take data.data_size.toNat = (v.sent.drop l.payload).take data.data_size.toNat) :=
        Option.decidableForallMem _
      inferInstanceAs (Decidable (data.data_size.toNat ≤ BUFFER_SIZE ∧
        l.payload + data.data_size.toNat ≤ v.sent.length ∧
        ∀ out ∈ decrypt lib data.data_payload v.K,
          out.toList.take data.data_size.toNat = (v.sent.drop l.payload).take data.data_size.toNat))
  | ⟨.recv .packet, none⟩ => isTrue trivial
  | ⟨.recv .resource, _⟩ => isTrue trivial
  | ⟨.recv .code, _⟩ => isTrue trivial
  | ⟨.recv .offset, _⟩ => isTrue trivial
  | ⟨.recv .hash, _⟩ => isTrue trivial
  | ⟨.send _ _, _⟩ => isTrue trivial
  | ⟨.loc _, _⟩ => isTrue trivial

instance (t : SysTape lib) : Decidable (v.Behind t) :=
  inferInstanceAs (Decidable (Published t.log →
    ∀ img ∈ t.world.fs.fileAt (t.world.loc v.ckpt),
      (img.take sizeofCheckpoint).length = sizeofCheckpoint →
        (Checkpoint.ofImage (img.take sizeofCheckpoint)).offset.toNat ≤ v.whole.length ∧
        ∃ X ∈ t.world.fs.fileAt (t.world.loc v.zip),
          v.whole.take (Checkpoint.ofImage (img.take sizeofCheckpoint)).offset.toNat <+: X))

/-- A flush that hands over all there is. -/
def empties : SysEvent lib → Bool
  | ⟨.loc (.fflush _), out⟩ =>
      let stream : Stream := out
      stream.pending.isEmpty
  | _ => true

theorem flushes_of_empties {log : List (SysEvent lib)} (all : log.all empties = true) :
    v.Flushes log := by
  intro mode opened fp out _ flushes _
  have empty : out.pending.isEmpty = true := List.all_eq_true.mp all _ flushes
  exact List.isEmpty_iff.mp empty

theorem direct_of_absent {fs : Store Name UInt8} {l : Loc} (absent : fs.node l = none) :
    Direct fs l := by
  intro target link
  rw [absent] at link
  cases link

/-- A new transfer of one byte. -/
def oneByte : Arrival where
  mem := smallSite.mem
  zip := [97]
  K := smallSite.K
  offset := 0
  ckpt := [99]
  path := [97]
  world := ⟨Store.bare, []⟩
  sent := [0]
  data_direct := direct_of_absent (by decide)
  tmp_direct := direct_of_absent (by decide)
  data_ne_tmp := by decide
  data_ne_ckpt := by decide
  tmp_ne_ckpt := by decide

/-- The transfer up to the checkpoint, the flush of the partial file as `fate` has it. -/
def oneByteRun (fate : Fate) : P reference Int × SysTape reference :=
  Prog.play (Player.solo (machine reference True).onTape)
    ([.loc .works, .frame .resource ⟨1, zeros _, zeros _⟩] ++ List.replicate 3 (.loc .works) ++
      [.frame .packet ⟨zeros _, 1⟩, .loc .works, .loc fate] ++ List.replicate 6 (.loc .works))
    (oneByte.receive reference, ⟨oneByte.world, []⟩)

theorem reach_oneByteRun (fate : Fate) :
    Prog.Reach (soloSem (tapeSem still (sysSem reference True)))
      (oneByte.receive reference, ⟨oneByte.world, []⟩) (oneByteRun fate) :=
  reach_play _ _ _

/-- The flush succeeds, and the checkpoint is behind the data. -/
theorem checkpoint_behind_data_small : oneByte.Behind (oneByteRun .works).2 :=
  (checkpoint_behind_data oneByte (by decide) (reach_oneByteRun .works)).1
    ⟨by decide +kernel, flushes_of_empties (by decide +kernel)⟩

/-- The flush fails, and the checkpoint says that the byte is there. -/
theorem checkpoint_ahead_of_data :
    ∃ c, Prog.Reach (soloSem (tapeSem still (sysSem reference True)))
        (oneByte.receive reference, ⟨oneByte.world, []⟩) c ∧
      Along (oneByte.Sends reference) c.2.log ∧ ¬ oneByte.Behind c.2 := by
  refine ⟨oneByteRun .fails, reach_oneByteRun .fails, ?_, ?_⟩
  · decide +kernel
  · decide +kernel

end Arrival

end Filerail
