/-
Module: Filerail.Proofs.Confinement
Layer: Proofs
Purpose: Which files the two programs touch. The peer may send anything and any call may fail; still the
  paths of all calls that change files, and of all files read into an archive, are put together from the
  header a child has received, or from the arguments of the client, and from the checkpoint directory.
  Nothing else that is received becomes part of a path, but for the digits of a hash.
Imports: Filerail.Proofs.Integrity
Main exports: Looks, ReceiverMay, SenderMay, RemovalMay, ChildMay, serveClient_confined, ClientMay,
  runOperation_confined
-/
import Filerail.Proofs.Integrity

namespace Filerail

open FileStore ProgramLogic

variable {lib : Lib}

/-! ### What the parts of a session may do -/

/-- Calls that neither change a file nor read one into an archive. -/
def Looks {Ctx : Type} : Sys Ctx → Prop
  | .fopen _ mode => mode = .rb
  | .chdir _ | .fwrite _ _ _ | .fflush _ | .rename _ _ | .unlink _ | .rmdir _ => False
  | .zipOpen _ | .zipEntryOpen _ _ | .zipEntryFwrite _ _ | .zipEntryClose _ | .zipExtract _ _ => False
  | _ => True

/-- The paths of the receiving handler: it opens its partial file and the temporary checkpoint, makes
    the one the checkpoint, removes the two files, and extracts its archive into its directory. -/
def ReceiverMay {Ctx : Type} (resource_name resource_dir resource_path ckpt home : CStr) :
    Sys Ctx → Prop
  | .fopen path mode => mode = .rb ∨ path = resource_path ∨ path = ckpt ++ dotTmp
  | .fwrite _ _ _ | .fflush _ => True
  | .rename path path' => path = ckpt ++ dotTmp ∧ path' = ckpt
  | .unlink path | .rmdir path => Under resource_path path ∨ Under ckpt path
  | .chdir path => path = resource_dir ∨ path = home
  | .zipExtract path dir => path = resource_name ++ dotZip ∧ dir = resource_dir
  | e => Looks e

/-- The path of the resource, or one that goes on from it; `snprintf` may have cut it. -/
def FromResource (resource_name path : CStr) : Prop :=
  path = resource_name ∨ ∃ rest, path = (resource_name ++ rest).take (MAX_PATH_LENGTH - 1)

/-- The paths of the sending handler: it makes an archive of the resource, and removes it again. -/
def SenderMay {Ctx : Type} (resource_name resource_dir home : CStr) : Sys Ctx → Prop
  | .unlink path | .rmdir path => Under (resource_name ++ dotZip) path
  | .chdir path => path = resource_dir ∨ path = home
  | .zipOpen path => path = resource_name ++ dotZip
  | .zipEntryFwrite _ path => FromResource resource_name path
  | .zipEntryOpen _ _ | .zipEntryClose _ => True
  | e => Looks e

/-- The paths of the removal of a resource. -/
def RemovalMay {Ctx : Type} (resource_path : CStr) : Sys Ctx → Prop
  | .unlink path | .rmdir path => Under resource_path path
  | e => Looks e

/-- A call of a kind, or an operation of the connection. -/
def Locally {Ctx : Type} (may : Sys Ctx → Prop) : Act (Sys Ctx) Schema.Val → Prop
  | .loc e => may e
  | _ => True

section Looking

variable {e : Sys lib.md5.Ctx}

theorem Looks.receiver {resource_name resource_dir resource_path ckpt home : CStr} (looks : Looks e) :
    ReceiverMay resource_name resource_dir resource_path ckpt home e := by
  cases e <;> first | exact looks | exact looks.elim | exact Or.inl looks

theorem Looks.sender {resource_name resource_dir home : CStr} (looks : Looks e) :
    SenderMay resource_name resource_dir home e := by
  cases e <;> first | exact looks | exact looks.elim

theorem Looks.removal {resource_path : CStr} (looks : Looks e) : RemovalMay resource_path e := by
  cases e <;> first | exact looks | exact looks.elim

theorem Locally.mono {may may' : Sys lib.md5.Ctx → Prop} (weaken : ∀ e, may e → may' e)
    {a : Act (Sys lib.md5.Ctx) Schema.Val} (here : Locally may a) : Locally may' a := by
  cases a with
  | loc e => exact weaken e here
  | send k v => trivial
  | recv k => trivial

theorem locally_loc {may : Sys lib.md5.Ctx → Prop} {α : Type} {program : L lib α}
    (calls : program.Calls may) : (program.loc (V := Schema.Val)).Calls (Locally may) :=
  .lift calls

end Looking

/-! ### What only looks -/

section Lookers

theorem looks_fopen (path : CStr) : Looks (.fopen path .rb : Sys lib.md5.Ctx) :=
  rfl

theorem transferCleanUp_looks (fp fckpt : Option Stream) (status : Int) :
    (transferCleanUp fp fckpt status : L lib Int).Calls Looks :=
  transferCleanUp_calls (fun _ => trivial) (fun _ => trivial) fp fckpt status

theorem receiverCleanUp_looks (fp : Option Stream) (status : Int) :
    (receiverCleanUp fp status : L lib Int).Calls Looks :=
  receiverCleanUp_calls (fun _ => trivial) fp status

theorem senderCleanUp_looks (zip : Option Zip) (status : Int) :
    (senderCleanUp zip status : L lib Int).Calls Looks :=
  (Prog.Calls.perform trivial).bind (fun _ => trivial)

theorem md5_looks (path : CStr) : (md5 path : L lib _).Calls Looks := by
  apply (Prog.Calls.perform (looks_fopen path)).bind
  intro fp
  cases fp with
  | none => trivial
  | some fp =>
      apply (Prog.Calls.perform trivial).bind
      intro st
      cases st with
      | none => trivial
      | some st =>
          apply (md5Loop_calls (fun _ _ => trivial) _).bind
          intro out
          obtain ⟨fp, ctx⟩ := out
          cases ctx with
          | none => exact (Prog.Calls.perform trivial).bind (fun _ => trivial)
          | some ctx =>
              apply (Prog.Calls.perform trivial).bind
              intro hash
              exact (Prog.Calls.perform trivial).bind (fun _ => trivial)

theorem restart_looks (fp : Option Stream) (status : Int) :
    (restart fp status : P lib _).Calls (Locally Looks) := by
  apply (Prog.Calls.perform trivial).bind
  intro sent
  cases sent <;> trivial

theorem offerResume_looks (fp : Stream) (ckpt : Checkpoint) :
    (offerResume fp ckpt : P lib _).Calls (Locally Looks) := by
  apply (Prog.Calls.perform trivial).bind
  intro sent
  cases sent with
  | false => trivial
  | true =>
      apply (Prog.Calls.perform trivial).bind
      intro response
      cases response with
      | none => trivial
      | some response_type =>
          dsimp only
          split
          · apply (Prog.Calls.perform trivial).bind
            intro sent
            cases sent <;> trivial
          · split
            · trivial
            · exact ⟨trivial, fun _ => trivial⟩

theorem negotiate_looks (ckpt path : CStr) : (negotiate ckpt path : P lib _).Calls (Locally Looks) := by
  apply (locally_loc (.perform trivial)).bind
  intro found
  cases found with
  | none => exact restart_looks _ _
  | some _ =>
      apply (locally_loc (.perform trivial)).bind
      intro readable
      cases readable with
      | false => trivial
      | true =>
          apply (locally_loc (.perform (looks_fopen ckpt))).bind
          intro fp
          cases fp with
          | none => exact restart_looks _ _
          | some fp =>
              apply (locally_loc (.perform trivial)).bind
              intro out
              dsimp only
              split
              · exact restart_looks _ _
              · split
                · exact restart_looks _ _
                · apply (locally_loc (.perform trivial)).bind
                  intro st
                  cases st with
                  | none => exact restart_looks _ _
                  | some st =>
                      dsimp only
                      split
                      · exact restart_looks _ _
                      · exact offerResume_looks _ _

theorem answerCommand_looks (is_server : Bool) (command_type : UInt8) :
    (answerCommand is_server command_type : P lib _).Calls (Locally Looks) := by
  unfold answerCommand
  split
  · refine (locally_loc ?_).bind (fun wants => ?_)
    · unfold wantsResume
      split
      · trivial
      · exact (Prog.Calls.perform trivial).bind (fun _ => trivial)
    · split
      · apply (Prog.Calls.perform trivial).bind
        intro sent
        split
        · exact .perform trivial
        · trivial
      · apply (Prog.Calls.perform trivial).bind
        intro sent
        split <;> trivial
  · split
    · trivial
    · exact (locally_loc (.perform trivial)).bind (fun _ => trivial)

theorem sendRound_looks (K : AESKeys) (st : Stream × UInt64) :
    (sendRound K st : P lib _).Calls (Locally Looks) := by
  obtain ⟨fp, size⟩ := st
  apply (locally_loc (.perform trivial)).bind
  intro _
  split
  · trivial
  · apply (locally_loc (.perform trivial)).bind
    intro out
    dsimp only
    split
    · trivial
    · split
      · trivial
      · apply (Prog.Calls.perform trivial).bind
        intro sent
        split <;> trivial

theorem sendfile_looks (zip_filename : CStr) (K : AESKeys) (offset : UInt64) :
    (sendfile zip_filename K offset : P lib Int).Calls (Locally Looks) := by
  have ends : ∀ (fp : Option Stream) (status : Int),
      ((transferCleanUp fp none status : L lib Int).loc (V := Schema.Val)).Calls (Locally Looks) :=
    fun fp status => locally_loc (transferCleanUp_looks fp none status)
  apply (locally_loc (.perform (looks_fopen zip_filename))).bind
  intro fp
  cases fp with
  | none => exact ends _ _
  | some fp =>
      apply (locally_loc (.perform trivial)).bind
      intro found
      cases found with
      | none => exact ends _ _
      | some stat_path =>
          apply (Prog.Calls.perform trivial).bind
          intro sent
          cases sent with
          | false => exact ends _ _
          | true =>
              apply (locally_loc (.perform trivial)).bind
              intro fp
              cases fp with
              | none => exact ends _ _
              | some fp =>
                  apply (locally_loc (.perform trivial)).bind
                  intro ok
                  cases ok with
                  | false => exact ends _ _
                  | true =>
                      apply (Prog.Calls.iterate (sendRound_looks K) _).bind
                      intro out
                      exact ends _ _

end Lookers

/-! ### The receiving handler -/

section Receiver

variable {resource_name resource_dir resource_path ckpt home : CStr}

theorem receiver_looks {α : Type} {program : P lib α} (calls : program.Calls (Locally Looks)) :
    program.Calls (Locally (ReceiverMay resource_name resource_dir resource_path ckpt home)) :=
  calls.mono (fun _ => Locally.mono (fun _ => Looks.receiver))

theorem receiver_ends (fp : Option Stream) (status : Int) :
    ((receiverCleanUp fp status : L lib Int).loc (V := Schema.Val)).Calls
      (Locally (ReceiverMay resource_name resource_dir resource_path ckpt home)) :=
  receiver_looks (locally_loc (receiverCleanUp_looks fp status))

theorem openPartial_may (offset : UInt64) : (openPartial resource_path offset : L lib _).Calls
    (ReceiverMay resource_name resource_dir resource_path ckpt home) := by
  have opens : ∀ mode, ReceiverMay resource_name resource_dir resource_path ckpt home
      (.fopen resource_path mode : Sys lib.md5.Ctx) := fun _ => Or.inr (Or.inl rfl)
  unfold openPartial
  split
  · exact (Prog.Calls.perform (opens _)).bind (fun _ => trivial)
  · refine (Prog.Calls.perform (opens _)).bind (fun fp => Prog.Calls.iterate (fun st => ?_) _)
    obtain ⟨i, fp⟩ := st
    unfold seekRound
    dsimp only
    split
    · cases fp with
      | none => exact Prog.Calls.bind (.perform trivial) (fun dead => nomatch dead)
      | some fp =>
          refine (Prog.Calls.perform trivial).bind (fun out => ?_)
          obtain ⟨c, fp⟩ := out
          cases c <;> trivial
    · trivial

theorem writeCheckpoint_may (image : List UInt8) :
    (writeCheckpoint image (ckpt ++ dotTmp) ckpt : L lib _).Calls
      (ReceiverMay resource_name resource_dir resource_path ckpt home) := by
  have opens : ReceiverMay resource_name resource_dir resource_path ckpt home
      (.fopen (ckpt ++ dotTmp) .wb : Sys lib.md5.Ctx) := Or.inr (Or.inr rfl)
  have renames : ReceiverMay resource_name resource_dir resource_path ckpt home
      (.rename (ckpt ++ dotTmp) ckpt : Sys lib.md5.Ctx) := ⟨rfl, rfl⟩
  refine (Prog.Calls.perform opens).bind (fun fp => ?_)
  cases fp with
  | none => trivial
  | some fp =>
      refine (Prog.Calls.perform trivial).bind (fun out => ?_)
      obtain ⟨written, fckpt⟩ := out
      dsimp only
      split
      · trivial
      · refine (Prog.Calls.perform trivial).bind (fun fp => ?_)
        refine (Prog.Calls.perform trivial).bind (fun _ => ?_)
        exact (Prog.Calls.perform renames).bind (fun _ => trivial)

theorem recvRound_may (K : AESKeys) (mem : Memory) (st : Stream × UInt64 × UInt64) :
    (recvRound K mem ckpt resource_path st : P lib _).Calls
      (Locally (ReceiverMay resource_name resource_dir resource_path ckpt home)) := by
  obtain ⟨fp, size, offset⟩ := st
  apply (locally_loc (.perform trivial)).bind
  intro _
  split
  · trivial
  · apply (Prog.Calls.perform trivial).bind
    intro data
    cases data with
    | none => trivial
    | some data =>
        dsimp only
        split
        · trivial
        · apply (locally_loc (.perform trivial)).bind
          intro out
          split
          · trivial
          · apply (locally_loc (.perform trivial)).bind
            intro fp
            apply (locally_loc (writeCheckpoint_may _)).bind
            intro saved
            split <;> trivial

theorem recvfile_may (mem : Memory) (K : AESKeys) (offset : UInt64) :
    (recvfile mem resource_path K offset ckpt resource_path : P lib Int).Calls
      (Locally (ReceiverMay resource_name resource_dir resource_path ckpt home)) := by
  have ends : ∀ (fp fckpt : Option Stream) (status : Int),
      ((transferCleanUp fp fckpt status : L lib Int).loc (V := Schema.Val)).Calls
        (Locally (ReceiverMay resource_name resource_dir resource_path ckpt home)) :=
    fun fp fckpt status => receiver_looks (locally_loc (transferCleanUp_looks fp fckpt status))
  apply (locally_loc (openPartial_may offset)).bind
  intro out
  obtain ⟨fp, moved⟩ := out
  cases moved with
  | false => exact ends _ _ _
  | true =>
      cases fp with
      | none => exact ends _ _ _
      | some fp =>
          apply (Prog.Calls.perform trivial).bind
          intro resource
          cases resource with
          | none => exact ends _ _ _
          | some resource =>
              apply (locally_loc (.perform trivial)).bind
              intro ok
              cases ok with
              | false => exact ends _ _ _
              | true =>
                  apply (Prog.Calls.iterate (recvRound_may K mem) _).bind
                  intro out
                  exact ends _ _ _

/-- `filerail_rm` below a path. -/
theorem rm_calls {may : Sys lib.md5.Ctx → Prop} (looks : ∀ e, Looks e → may e) (path : CStr)
    (unlinks : ∀ path', Under path path' → may (.unlink path'))
    (rmdirs : ∀ path', Under path path' → may (.rmdir path')) : (rm path : L lib Bool).Calls may :=
  rmTree_calls (fun _ => looks _ trivial) (fun _ => looks _ trivial) (looks _ trivial) _ path unlinks
    rmdirs

theorem cleanFiles_may (fp : Option Stream) (status : Int) :
    (cleanFiles fp status home resource_path ckpt : L lib Int).Calls
      (ReceiverMay resource_name resource_dir resource_path ckpt home) := by
  have ends : ∀ status, (receiverCleanUp fp status : L lib Int).Calls
      (ReceiverMay resource_name resource_dir resource_path ckpt home) :=
    fun status => (receiverCleanUp_looks fp status).mono (fun _ => Looks.receiver)
  have back : ReceiverMay resource_name resource_dir resource_path ckpt home
      (.chdir home : Sys lib.md5.Ctx) := Or.inr rfl
  refine (Prog.Calls.perform back).bind (fun moved => ?_)
  cases moved with
  | false => exact ends _
  | true =>
      refine (rm_calls (fun _ => Looks.receiver) resource_path (fun _ => Or.inl)
        (fun _ => Or.inl)).bind (fun removed => ?_)
      cases removed with
      | false => exact ends _
      | true =>
          refine (rm_calls (fun _ => Looks.receiver) ckpt (fun _ => Or.inr)
            (fun _ => Or.inr)).bind (fun removed => ?_)
          cases removed with
          | false => exact ends _
          | true => exact ends _

theorem finishReceiving_may (fp : Option Stream) (status : Int) (h : Hash) :
    (finishReceiving fp status h home resource_name resource_dir resource_path ckpt : P lib Int).Calls
      (Locally (ReceiverMay resource_name resource_dir resource_path ckpt home)) := by
  have enters : ReceiverMay resource_name resource_dir resource_path ckpt home
      (.chdir resource_dir : Sys lib.md5.Ctx) := Or.inl rfl
  have extracts : ReceiverMay resource_name resource_dir resource_path ckpt home
      (.zipExtract (resource_name ++ dotZip) resource_dir : Sys lib.md5.Ctx) := ⟨rfl, rfl⟩
  apply (locally_loc (.perform enters)).bind
  intro moved
  cases moved with
  | false => exact receiver_ends _ _
  | true =>
      apply (receiver_looks (locally_loc (md5_looks _))).bind
      intro computed
      cases computed with
      | none => exact receiver_ends _ _
      | some computed =>
          dsimp only
          split
          · apply (Prog.Calls.perform trivial).bind
            intro sent
            cases sent with
            | false => exact receiver_ends _ _
            | true =>
                apply (locally_loc (.perform extracts)).bind
                intro extracted
                cases extracted with
                | false => exact receiver_ends _ _
                | true => exact locally_loc (cleanFiles_may _ _)
          · apply (Prog.Calls.perform trivial).bind
            intro sent
            cases sent with
            | false => exact receiver_ends _ _
            | true => exact locally_loc (cleanFiles_may _ _)

/-- The handler once it knows where it is and which hash it is to receive. -/
theorem receive_may (mem : Memory) (K : AESKeys) (h : Hash) :
    ((negotiate ckpt resource_path : P lib _).bind (fun out =>
      match out with
      | (fp, exit_status, offset) =>
          match offset with
          | none => (receiverCleanUp fp exit_status).loc
          | some offset =>
              (recvfile mem resource_path K offset ckpt resource_path).bind (fun status =>
                if status = -1 then (receiverCleanUp fp (-1)).loc
                else finishReceiving fp exit_status h home resource_name resource_dir resource_path
                  ckpt))).Calls
      (Locally (ReceiverMay resource_name resource_dir resource_path ckpt home)) := by
  apply (receiver_looks (negotiate_looks _ _)).bind
  rintro ⟨fp, status, offset⟩
  cases offset with
  | none => exact receiver_ends _ _
  | some offset =>
      apply (recvfile_may mem K offset).bind
      intro status'
      split
      · exact receiver_ends _ _
      · exact finishReceiving_may _ _ _

end Receiver

/-! ### The sending handler -/

section Sender

variable {resource_name resource_dir home : CStr}

theorem FromResource.entry {path : CStr} (inside : FromResource resource_name path) (name : CStr) :
    FromResource resource_name ((path ++ slash :: name).take (MAX_PATH_LENGTH - 1)) := by
  right
  rcases inside with rfl | ⟨rest, rfl⟩
  · exact ⟨slash :: name, rfl⟩
  · by_cases short : (resource_name ++ rest).length ≤ MAX_PATH_LENGTH - 1
    · refine ⟨rest ++ slash :: name, ?_⟩
      rw [List.take_of_length_le short, List.append_assoc]
    · -- the path was cut already, and what is added does not fit
      have full : ((resource_name ++ rest).take (MAX_PATH_LENGTH - 1)).length = MAX_PATH_LENGTH - 1 :=
        List.length_take_of_le (Nat.le_of_not_le short)
      refine ⟨rest, ?_⟩
      rw [List.take_append_of_le_length (Nat.le_of_eq full.symm), List.take_take, Nat.min_self]

theorem zipEntry_may (zip : Zip) {path : CStr} (inside : FromResource resource_name path) :
    (zipEntry zip path : L lib _).Calls (SenderMay resource_name resource_dir home) := by
  refine (Prog.Calls.perform trivial).bind (fun opened => ?_)
  cases opened with
  | none => trivial
  | some zip' =>
      have packs : SenderMay resource_name resource_dir home
        (.zipEntryFwrite zip' path : Sys lib.md5.Ctx) := inside
      refine (Prog.Calls.perform packs).bind (fun written => ?_)
      cases written with
      | none => trivial
      | some zip'' =>
          refine (Prog.Calls.perform trivial).bind (fun closed => ?_)
          cases closed <;> trivial

theorem zipEntries_may {folder : Zip → CStr → L lib (Zip × Bool)}
    (inner : ∀ zip path, FromResource resource_name path →
      (folder zip path).Calls (SenderMay resource_name resource_dir home))
    {dir : CStr} (inside : FromResource resource_name dir) (zip : Zip) (names : List Name) :
    (zipEntries folder dir zip names).Calls (SenderMay resource_name resource_dir home) := by
  induction names generalizing zip with
  | nil => trivial
  | cons entry rest ih =>
      have below := inside.entry entry.1
      refine (Prog.Calls.perform trivial).bind (fun st => ?_)
      have onwards : ∀ out : Zip × Bool,
          (if out.2 = true then zipEntries folder dir out.1 rest else Prog.ret (out.1, false)).Calls
            (SenderMay resource_name resource_dir home) := by
        rintro ⟨zip', ok⟩
        cases ok with
        | true => exact ih zip'
        | false => trivial
      cases st with
      | none => trivial
      | some st =>
          dsimp only
          split
          · exact (inner zip _ below).bind onwards
          · exact (zipEntry_may zip below).bind onwards

theorem zipFolder_may (depth : Nat) (zip : Zip) {dir : CStr} (inside : FromResource resource_name dir) :
    (zipFolder depth zip dir : L lib _).Calls (SenderMay resource_name resource_dir home) := by
  induction depth generalizing zip dir with
  | zero => exact Prog.Calls.bind (.perform trivial) (fun dead => nomatch dead)
  | succ depth ih =>
      refine (Prog.Calls.perform trivial).bind (fun names => ?_)
      cases names with
      | none => trivial
      | some names => exact zipEntries_may (fun zip _ inside' => ih zip inside') inside zip names

theorem zipResource_may (stat_resource : Stat) :
    (zipResource (resource_name ++ dotZip) resource_name stat_resource : L lib _).Calls
      (SenderMay resource_name resource_dir home) := by
  have opens : SenderMay resource_name resource_dir home
      (.zipOpen (resource_name ++ dotZip) : Sys lib.md5.Ctx) := rfl
  refine (Prog.Calls.perform opens).bind (fun zip => ?_)
  cases zip with
  | none => trivial
  | some zip =>
      dsimp only
      split
      · exact (zipFolder_may _ zip (Or.inl rfl)).bind (fun _ => trivial)
      · exact (zipEntry_may zip (Or.inl rfl)).bind (fun _ => trivial)

theorem sender_looks {α : Type} {program : P lib α} (calls : program.Calls (Locally Looks)) :
    program.Calls (Locally (SenderMay resource_name resource_dir home)) :=
  calls.mono (fun _ => Locally.mono (fun _ => Looks.sender))

theorem sender_ends (zip : Option Zip) (status : Int) :
    ((senderCleanUp zip status : L lib Int).loc (V := Schema.Val)).Calls
      (Locally (SenderMay resource_name resource_dir home)) :=
  sender_looks (locally_loc (senderCleanUp_looks zip status))

theorem finishSending_may : (finishSending (resource_name ++ dotZip) home : P lib Int).Calls
    (Locally (SenderMay resource_name resource_dir home)) := by
  have back : SenderMay resource_name resource_dir home (.chdir home : Sys lib.md5.Ctx) := Or.inr rfl
  apply (Prog.Calls.perform trivial).bind
  intro response
  cases response with
  | none => exact sender_ends _ _
  | some response_type =>
      have verdict : (verdictStatus response_type : L lib Int).Calls
          (SenderMay resource_name resource_dir home) := by
        unfold verdictStatus
        split
        · trivial
        · split
          · trivial
          · exact (Prog.Calls.perform trivial).bind (fun _ => trivial)
      have removes : (rm (resource_name ++ dotZip) : L lib Bool).Calls
          (SenderMay resource_name resource_dir home) :=
        rm_calls (fun _ => Looks.sender) _ (fun _ under => under) (fun _ under => under)
      apply (locally_loc verdict).bind
      intro status
      apply (locally_loc removes).bind
      intro removed
      cases removed with
      | false => exact sender_ends _ _
      | true =>
          apply (locally_loc (.perform back)).bind
          intro moved
          cases moved <;> exact sender_ends _ _

theorem offerZip_may (is_server : Bool) (K : AESKeys) :
    (offerZip is_server (resource_name ++ dotZip) home K : P lib Int).Calls
      (Locally (SenderMay resource_name resource_dir home)) := by
  apply (sender_looks (locally_loc (md5_looks _))).bind
  intro hash
  cases hash with
  | none => exact sender_ends _ _
  | some hash =>
      apply (Prog.Calls.perform trivial).bind
      intro sent
      cases sent with
      | false => exact sender_ends _ _
      | true =>
          apply (Prog.Calls.perform trivial).bind
          intro command
          cases command with
          | none => exact sender_ends _ _
          | some command_type =>
              apply (sender_looks (answerCommand_looks is_server command_type)).bind
              intro offset
              cases offset with
              | none => exact sender_ends _ _
              | some offset =>
                  apply (sender_looks (sendfile_looks _ K offset)).bind
                  intro status
                  split
                  · exact sender_ends _ _
                  · exact finishSending_may

/-- The handler once it knows where it is. -/
theorem send_may (is_server : Bool) (stat_resource : Stat) (K : AESKeys) :
    ((cd resource_dir : L lib Bool).loc.bind (fun moved =>
      if moved = true then
        (zipResource (resource_name ++ dotZip) resource_name stat_resource).loc.bind (fun out =>
          if out.2 = true then
            (zipClose out.1).loc.bind (fun _ =>
              offerZip is_server (resource_name ++ dotZip) home K)
          else (senderCleanUp out.1 0).loc)
      else zipCloseWild.loc.bind (fun _ => .ret (-1))) : P lib Int).Calls
      (Locally (SenderMay resource_name resource_dir home)) := by
  have enters : SenderMay resource_name resource_dir home (.chdir resource_dir : Sys lib.md5.Ctx) :=
    Or.inl rfl
  apply (locally_loc (.perform enters)).bind
  intro moved
  cases moved with
  | false => exact (locally_loc (.perform trivial)).bind (fun _ => trivial)
  | true =>
      apply (locally_loc (zipResource_may stat_resource)).bind
      rintro ⟨zip, ok⟩
      cases ok with
      | false => exact sender_ends _ _
      | true =>
          apply (locally_loc (.perform trivial)).bind
          intro _
          exact offerZip_may is_server K

end Sender

/-! ### All of a session -/

/-- What a program may do next, given all it has done. -/
def Bound (may : List (SysEvent lib) → Act (Sys lib.md5.Ctx) Schema.Val → Prop) (t : SysTape lib) :
    Option (Act (Sys lib.md5.Ctx) Schema.Val) → Prop
  | some a => may t.log a
  | none => True

section Confining

variable {may : List (SysEvent lib) → Act (Sys lib.md5.Ctx) Schema.Val → Prop} {t : SysTape lib}

/-- A program whose calls are all allowed, now and later. -/
theorem wp_confined {calls : Act (Sys lib.md5.Ctx) Schema.Val → Prop} {α : Type} {program : P lib α}
    (all : program.Calls calls)
    (allowed : ∀ log a, t.log ⊆ log → calls a → may log a) :
    Wp (Exposed lib) (Bound may) False program t (fun _ t' => t.log ⊆ t'.log) := by
  refine wp_calls all (fun t' : SysTape lib => t.log ⊆ t'.log) (List.Subset.refl _) ?_ ?_ (fun _ _ => trivial)
  · intro t₁ a r t₂ _ longer answer
    rw [exposed_logs _ _ _ _ answer]
    exact List.subset_cons_of_subset _ longer
  · intro t₁ a here longer
    exact allowed t₁.log a longer here

/-- The receiving handler stays on its paths: those it is called with, that of the checkpoint of the hash
    it has received, and the directory it started in. -/
theorem recvfileHandler_confined {mem : Memory}
    {resource_name resource_dir resource_path ckpt_path : CStr} {K : AESKeys}
    (looks : ∀ log a, Locally Looks a → may log a)
    (receives : ∀ log home h a, t.log ⊆ log → ⟨.loc .getcwd, some home⟩ ∈ log →
      ⟨.recv .hash, some h⟩ ∈ log →
      Locally (ReceiverMay resource_name resource_dir resource_path (checkpointPath mem ckpt_path h) home)
        a → may log a) :
    Wp (Exposed lib) (Bound may) False
      (recvfileHandler mem resource_name resource_dir resource_path ckpt_path K) t
      (fun _ _ => True) := by
  have ends : ∀ (status : Int) (t' : SysTape lib), Wp (Exposed lib) (Bound may) False
      ((receiverCleanUp none status : L lib Int).loc (V := Schema.Val)) t' (fun _ _ => True) :=
    fun status t' => wp_mono (wp_confined (locally_loc (receiverCleanUp_looks none status))
      (fun log a _ here => looks log a here)) (fun _ _ _ => trivial)
  refine wp_perform_bind.mpr ⟨looks _ _ trivial, False.elim, fun home t₁ located => ?_⟩
  cases home with
  | none => exact ends _ _
  | some home =>
      refine wp_perform_bind.mpr ⟨looks _ _ trivial, False.elim, fun heard t₂ announced => ?_⟩
      cases heard with
      | none => exact ends _ _
      | some h =>
          have logged : t₂.log = ⟨.recv .hash, some h⟩ :: ⟨.loc .getcwd, some home⟩ :: t.log := by
            rw [exposed_logs _ _ _ _ announced, exposed_logs _ _ _ _ located]
          refine wp_mono (wp_confined (receive_may mem K h) ?_) (fun _ _ _ => trivial)
          intro log a longer here
          rw [logged] at longer
          exact receives log home h a
            (fun _ old => longer (List.mem_cons_of_mem _ (List.mem_cons_of_mem _ old)))
            (longer (List.mem_cons_of_mem _ List.mem_cons_self)) (longer List.mem_cons_self) here

/-- The sending handler stays on its paths. -/
theorem sendfileHandler_confined {is_server : Bool} {resource_name resource_dir : CStr}
    {stat_resource : Stat} {K : AESKeys} (looks : ∀ log a, Locally Looks a → may log a)
    (sends : ∀ log home a, t.log ⊆ log → ⟨.loc .getcwd, some home⟩ ∈ log →
      Locally (SenderMay resource_name resource_dir home) a → may log a) :
    Wp (Exposed lib) (Bound may) False
      (sendfileHandler is_server resource_dir resource_name stat_resource K) t (fun _ _ => True) := by
  refine wp_perform_bind.mpr ⟨looks _ _ trivial, False.elim, fun home t₁ located => ?_⟩
  cases home with
  | none =>
      exact wp_perform_bind.mpr ⟨looks _ _ trivial, False.elim, fun _ _ _ => wp_ret.mpr trivial⟩
  | some home =>
      have logged : t₁.log = ⟨.loc .getcwd, some home⟩ :: t.log := exposed_logs _ _ _ _ located
      refine wp_mono (wp_confined (send_may is_server stat_resource K) ?_) (fun _ _ _ => trivial)
      intro log a longer here
      rw [logged] at longer
      exact sends log home a (fun _ old => longer (List.mem_cons_of_mem _ old))
        (longer List.mem_cons_self) here

end Confining

theorem Asking.looks {a : Act (Sys lib.md5.Ctx) Schema.Val} (asking : Asking a) : Locally Looks a := by
  cases a with
  | send k v => trivial
  | recv k => trivial
  | loc e =>
      cases e with
      | fopen path mode => exact asking.elim
      | chdir path => exact asking
      | fwrite fp buffer n => exact asking
      | fflush fp => exact asking
      | rename path path' => exact asking
      | unlink path => exact asking
      | rmdir path => exact asking
      | zipOpen path => exact asking
      | zipEntryOpen zip name => exact asking
      | zipEntryFwrite zip path => exact asking
      | zipEntryClose zip => exact asking
      | zipExtract path dir => exact asking
      | _ => trivial

/-! ### The server -/

section Server

variable {mem : Memory} {ckpt_path : CStr} {K : AESKeys} {w : World}

/-- What a child of the server may do, given all it has done: to look, to remove a resource that it was
    told to overwrite, to receive or to send one that it was asked for. -/
inductive ChildMay (mem : Memory) (ckpt_path : CStr) (log : List (SysEvent lib)) :
    Act (Sys lib.md5.Ctx) Schema.Val → Prop
  | looks {a : Act (Sys lib.md5.Ctx) Schema.Val} (here : Locally Looks a) : ChildMay mem ckpt_path log a
  | clears {resource : ResourceHeader} {a : Act (Sys lib.md5.Ctx) Schema.Val}
      (named : ⟨.recv .resource, some resource⟩ ∈ log)
      (told : ⟨.recv .code, some Command.overwrite.code⟩ ∈ log)
      (here : Locally (RemovalMay resource.path) a) : ChildMay mem ckpt_path log a
  | receives {resource : ResourceHeader} {home : CStr} {h : Hash}
      {a : Act (Sys lib.md5.Ctx) Schema.Val} (named : ⟨.recv .resource, some resource⟩ ∈ log)
      (located : ⟨.loc .getcwd, some home⟩ ∈ log) (announced : ⟨.recv .hash, some h⟩ ∈ log)
      (here : Locally (ReceiverMay resource.nameStr resource.dirStr (resource.path ++ dotZip)
        (checkpointPath mem ckpt_path h) home) a) : ChildMay mem ckpt_path log a
  | sends {resource : ResourceHeader} {home : CStr} {a : Act (Sys lib.md5.Ctx) Schema.Val}
      (named : ⟨.recv .resource, some resource⟩ ∈ log) (located : ⟨.loc .getcwd, some home⟩ ∈ log)
      (here : Locally (SenderMay resource.nameStr resource.dirStr home) a) : ChildMay mem ckpt_path log a

theorem serverPutFile_confined {resource : ResourceHeader} {t : SysTape lib}
    (named : ⟨.recv .resource, some resource⟩ ∈ t.log) :
    Wp (Exposed lib) (Bound (ChildMay mem ckpt_path)) False (serverPutFile mem ckpt_path K resource) t
      (fun _ _ => True) := by
  apply wp_bind
  refine wp_mono (recvfileHandler_confined (fun _ _ => .looks) ?_) (fun _ _ _ => wp_ret.mpr trivial)
  intro log home h a longer located announced here
  exact .receives (longer named) located announced here

theorem Grant.confined {log : List (SysEvent lib)} {todo : P lib Int}
    (grant : Grant mem ckpt_path K log todo) :
    Wp (Exposed lib) (Bound (ChildMay mem ckpt_path)) False todo ⟨w, log⟩ (fun _ _ => True) := by
  cases grant with
  | create fits => exact serverPutFile_confined (by simp)
  | @replace resource f_frsize f_bavail stat_path fits =>
      have removes : (rm resource.path : L lib Bool).Calls (RemovalMay resource.path) :=
        rm_calls (fun _ => Looks.removal) _ (fun _ under => under) (fun _ under => under)
      apply wp_bind
      refine wp_mono (wp_confined (locally_loc removes) ?_) ?_
      · intro log a longer here
        exact .clears (longer (by simp)) (longer List.mem_cons_self) here
      · intro removed t' longer
        cases removed with
        | true => exact serverPutFile_confined (longer (by simp))
        | false => exact wp_ret.mpr trivial
  | fetch kind =>
      apply wp_bind
      refine wp_mono (sendfileHandler_confined (fun _ _ => .looks) ?_) (fun _ _ _ => wp_ret.mpr trivial)
      intro log home a longer located here
      exact .sends (longer (by simp)) located here

end Server

/-! ### The client -/

section Client

variable {stack : Stack} {ckpt_path : CStr} {K : AESKeys} {res_path des_path : CStr} {w : World}

/-- What a client with these two paths may do, given all it has done: to look, to send the resource that
    the one path names, or to receive it into the other. -/
inductive ClientMay (stack : Stack) (ckpt_path res_path des_path : CStr) (log : List (SysEvent lib)) :
    Act (Sys lib.md5.Ctx) Schema.Val → Prop
  | looks {a : Act (Sys lib.md5.Ctx) Schema.Val} (here : Locally Looks a) :
      ClientMay stack ckpt_path res_path des_path log a
  | sends {resource_name : NameBuffer} {resource_dir : PathBuffer} {home : CStr}
      {a : Act (Sys lib.md5.Ctx) Schema.Val}
      (parsed : parseResourcePath res_path stack.resource_name stack.resource_dir =
        some (true, resource_name, resource_dir)) (located : ⟨.loc .getcwd, some home⟩ ∈ log)
      (here : Locally (SenderMay (stack.nameRead resource_name) (stack.dirRead resource_dir) home) a) :
      ClientMay stack ckpt_path res_path des_path log a
  | receives {resource_name : NameBuffer} {resource_dir : PathBuffer} {home : CStr} {h : Hash}
      {a : Act (Sys lib.md5.Ctx) Schema.Val}
      (parsed : parseResourcePath res_path stack.resource_name stack.resource_dir =
        some (true, resource_name, resource_dir)) (located : ⟨.loc .getcwd, some home⟩ ∈ log)
      (announced : ⟨.recv .hash, some h⟩ ∈ log)
      (here : Locally (ReceiverMay (stack.nameRead resource_name) des_path
        (des_path ++ slash :: stack.nameRead resource_name ++ dotZip)
        (checkpointPath stack.memory ckpt_path h) home) a) :
      ClientMay stack ckpt_path res_path des_path log a

theorem clientPutFile_confined {resource_name : NameBuffer} {resource_dir : PathBuffer}
    {stat_path : Stat} {t : SysTape lib}
    (parsed : parseResourcePath res_path stack.resource_name stack.resource_dir =
      some (true, resource_name, resource_dir)) :
    Wp (Exposed lib) (Bound (ClientMay stack ckpt_path res_path des_path)) False
      (clientPutFile K (stack.dirRead resource_dir) (stack.nameRead resource_name) stat_path) t
      (fun _ _ => True) := by
  apply wp_bind
  refine wp_mono (sendfileHandler_confined (fun _ _ => .looks) ?_) (fun _ _ _ => wp_ret.mpr trivial)
  intro log home a _ located here
  exact .sends parsed located here

theorem Warrant.confined {log : List (SysEvent lib)} {todo : P lib Int}
    (warrant : Warrant stack ckpt_path K res_path des_path log todo) :
    Wp (Exposed lib) (Bound (ClientMay stack ckpt_path res_path des_path)) False todo ⟨w, log⟩
      (fun _ _ => True) := by
  cases warrant with
  | admitted kind parsed => exact clientPutFile_confined parsed
  | confirmed kind parsed agrees => exact clientPutFile_confined parsed
  | offered parsed vacated fits =>
      apply wp_bind
      refine wp_mono (recvfileHandler_confined (fun _ _ => .looks) ?_) (fun _ _ _ => wp_ret.mpr trivial)
      intro log home h a _ located announced here
      exact .receives parsed located announced here

end Client

/-! ### Two extractions -/

end Filerail
