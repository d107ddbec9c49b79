/-
Module: Filerail.Proofs.Integrity
Layer: Proofs
Purpose: The gate in front of an extraction. A receiver hashes the archive, answers and extracts, and
  nothing it does in between touches a file; so what it extracts, and what it answers OK for, is a file
  with the hash that was announced to it, whoever announced it and whichever calls fail. The rest of
  the two programs does not extract, so that the same holds of the client and of the child of the
  server.
Imports: Filerail.Proofs.Consent, Filerail.Proofs.Truth
Main exports: Verified, Watched, Gate, recvfileHandler_gate, serveClient_verified, runOperation_verified
-/
import Filerail.Proofs.Consent
import Filerail.Proofs.Truth

namespace Filerail

open FileStore ProgramLogic

variable {lib : Lib}

/-- One hash was announced in this run, and it is that of the file a path leads to. -/
def Verified (path : CStr) (t : SysTape lib) : Prop :=
  ∃ X, t.world.fs.fileAt (t.world.target path) = some X ∧ hashes t.log = [lib.md5.digest X]

/-- In front of an extraction: the file is verified, and the last that was said is OK. -/
def Extractable (path : CStr) (t : SysTape lib) : Prop :=
  Verified path t ∧ t.log.head? = some ⟨.send .code Response.ok.code, true⟩

/-- What has to hold in front of an extraction, and in front of an OK once a hash was announced. -/
def Watched (t : SysTape lib) : Option (Act (Sys lib.md5.Ctx) Schema.Val) → Prop
  | some (.loc (.zipExtract path _)) => Extractable path t
  | some (.send .code type) => type = Response.ok.code → hashes t.log ≠ [] → ∃ path, Verified path t
  | _ => True

/-- The same in the receiving handler, where it is about one file. -/
def Gate (zip_filename : CStr) (t : SysTape lib) : Option (Act (Sys lib.md5.Ctx) Schema.Val) → Prop
  | some (.loc (.zipExtract path _)) => path = zip_filename ∧ Extractable path t
  | some (.send .code type) => type = Response.ok.code → Verified zip_filename t
  | _ => True

theorem Gate.watched {zip_filename : CStr} {t : SysTape lib}
    {a : Option (Act (Sys lib.md5.Ctx) Schema.Val)} (gate : Gate zip_filename t a) : Watched t a := by
  cases a with
  | none => trivial
  | some a =>
      cases a with
      | loc e =>
          cases e with
          | zipExtract path dir => exact gate.2
          | _ => trivial
      | send k v =>
          cases k with
          | code => exact fun ok _ => ⟨_, gate ok⟩
          | _ => trivial
      | recv k => trivial

/-! ### Parts of the programs that need no gate -/

/-- Neither an extraction, nor an OK, nor the arrival of a hash. -/
def Beside : Act (Sys lib.md5.Ctx) Schema.Val → Prop
  | .loc (.zipExtract _ _) => False
  | .send .code type => type ≠ Response.ok.code
  | .recv .hash => False
  | _ => True

/-- What is said and heard is neither an OK nor a hash. -/
def Reticent : Act (Sys lib.md5.Ctx) Schema.Val → Prop
  | .loc _ => True
  | a => Beside a

/-- Neither an extraction nor the arrival of a hash. -/
def NoReceipt : Act (Sys lib.md5.Ctx) Schema.Val → Prop
  | .loc (.zipExtract _ _) => False
  | .recv .hash => False
  | _ => True

section Parts

variable {α : Type} {t : SysTape lib} {hs : List Hash}

theorem Ordinary.beside {e : Sys lib.md5.Ctx} (ordinary : Ordinary e) :
    Beside (.loc e : Act (Sys lib.md5.Ctx) Schema.Val) := by
  cases e with
  | zipExtract path dir => exact ordinary
  | _ => trivial

theorem beside_of_leaves {a : Act (Sys lib.md5.Ctx) Schema.Val}
    (both : Leaves noMark a ∧ Reticent a) : Beside a := by
  obtain ⟨leaves, reticent⟩ := both
  cases a with
  | loc e =>
      cases e with
      | zipExtract path dir => exact leaves
      | _ => trivial
  | send k v => exact reticent
  | recv k => exact reticent

theorem beside_loc {p : L lib α} (calls : p.Calls Ordinary) : p.loc.Calls Beside :=
  .lift (calls.mono (fun _ => Ordinary.beside))

theorem beside_md5 (path : CStr) : (md5 path : L lib _).loc.Calls Beside :=
  .lift ((md5_leaves path).mono (fun _ leaves => beside_of_leaves ⟨leaves, trivial⟩))

theorem Beside.noReceipt {a : Act (Sys lib.md5.Ctx) Schema.Val} (beside : Beside a) : NoReceipt a := by
  cases a with
  | loc e =>
      cases e with
      | zipExtract path dir => exact beside
      | _ => trivial
  | send k v => trivial
  | recv k =>
      cases k with
      | hash => exact beside
      | _ => trivial

/-- The announced hashes are those there were. -/
theorem hashes_cons {a : Act (Sys lib.md5.Ctx) Schema.Val} (nothing : NoReceipt a)
    (r : a.Answer Sys.Resp) (log : List (SysEvent lib)) : hashes (⟨a, r⟩ :: log) = hashes log := by
  cases a with
  | recv k =>
      cases k with
      | hash => exact nothing.elim
      | _ => rfl
  | _ => rfl

theorem gate_of_beside {zip_filename : CStr} {a : Act (Sys lib.md5.Ctx) Schema.Val}
    (beside : Beside a) : Gate zip_filename t (some a) := by
  cases a with
  | loc e =>
      cases e with
      | zipExtract path dir => exact beside.elim
      | _ => trivial
  | send k v =>
      cases k with
      | code => exact fun ok => absurd ok beside
      | _ => trivial
  | recv k => trivial

theorem wp_beside {zip_filename : CStr} {p : P lib α} (calls : p.Calls Beside)
    (heard : hashes t.log = hs) :
    Wp (Exposed lib) (Gate zip_filename) False p t (fun _ t' => hashes t'.log = hs) := by
  apply wp_calls calls (fun t' : SysTape lib => hashes t'.log = hs) heard
  · intro t' a r t'' beside heard answer
    rw [solo_logs answer, hashes_cons beside.noReceipt]
    exact heard
  · intro _ _ beside _
    exact gate_of_beside beside
  · intros
    trivial

theorem wp_noReceipt {p : P lib α} (calls : p.Calls NoReceipt) (unheard : hashes t.log = []) :
    Wp (Exposed lib) Watched False p t (fun _ _ => True) := by
  refine wp_mono (wp_calls calls (fun t' : SysTape lib => hashes t'.log = []) unheard ?_ ?_ ?_)
    (fun _ _ _ => trivial)
  · intro t' a r t'' nothing unheard answer
    rw [solo_logs answer, hashes_cons nothing]
    exact unheard
  · intro t' a nothing unheard
    cases a with
    | loc e =>
        cases e with
        | zipExtract path dir => exact nothing.elim
        | _ => trivial
    | send k v =>
        cases k with
        | code => exact fun _ heard => absurd unheard heard
        | _ => trivial
    | recv k => trivial
  · intros
    trivial

end Parts

/-! ### The receiving handler -/

section Handler

variable {t : SysTape lib}

theorem reticent_code {type : UInt8} (other : type ≠ Response.ok.code) :
    Reticent (.send .code type : Act (Sys lib.md5.Ctx) Schema.Val) :=
  other

theorem reticent_loc {α : Type} (p : L lib α) : p.loc.Calls Reticent :=
  .loc (fun _ => trivial) p

theorem restart_reticent (fp : Option Stream) (status : Int) :
    (restart fp status : P lib _).Calls Reticent := by
  apply (Prog.Calls.perform (reticent_code (by decide))).bind
  intro sent
  cases sent <;> trivial

theorem offerResume_reticent (fp : Stream) (ckpt : Checkpoint) :
    (offerResume fp ckpt : P lib _).Calls Reticent := by
  apply (Prog.Calls.perform (reticent_code (by decide))).bind
  intro sent
  cases sent with
  | false => trivial
  | true =>
      apply (Prog.Calls.perform trivial).bind
      intro response
      cases response with
      | none => trivial
      | some response_type =>
          dsimp only
          split
          · apply (Prog.Calls.perform trivial).bind
            intro sent
            cases sent <;> trivial
          · split
            · trivial
            · exact ⟨trivial, fun _ => trivial⟩

theorem negotiate_reticent (ckpt path : CStr) : (negotiate ckpt path : P lib _).Calls Reticent := by
  apply (reticent_loc _).bind
  intro found
  cases found with
  | none => exact restart_reticent _ _
  | some _ =>
      apply (reticent_loc _).bind
      intro readable
      cases readable with
      | false => trivial
      | true =>
          apply (reticent_loc _).bind
          intro fp
          cases fp with
          | none => exact restart_reticent _ _
          | some fp =>
              apply (reticent_loc _).bind
              intro out
              dsimp only
              split
              · exact restart_reticent _ _
              · split
                · exact restart_reticent _ _
                · apply (reticent_loc _).bind
                  intro st
                  cases st with
                  | none => exact restart_reticent _ _
                  | some st =>
                      dsimp only
                      split
                      · exact restart_reticent _ _
                      · exact offerResume_reticent _ _

theorem recvRound_reticent (K : AESKeys) (mem : Memory) (ckpt path : CStr)
    (st : Stream × UInt64 × UInt64) :
    (recvRound K mem ckpt path st : P lib _).Calls Reticent := by
  obtain ⟨fp, size, offset⟩ := st
  apply (reticent_loc _).bind
  intro _
  split
  · trivial
  · apply (Prog.Calls.perform trivial).bind
    intro data
    cases data with
    | none => trivial
    | some data =>
        dsimp only
        split
        · trivial
        · apply (reticent_loc _).bind
          intro out
          split
          · trivial
          · apply (reticent_loc _).bind
            intro fp
            apply (reticent_loc _).bind
            intro saved
            split <;> trivial

theorem recvfile_reticent (mem : Memory) (zip : CStr) (K : AESKeys) (k : UInt64) (ckpt path : CStr) :
    (recvfile mem zip K k ckpt path : P lib Int).Calls Reticent := by
  apply (reticent_loc _).bind
  intro out
  obtain ⟨fp, moved⟩ := out
  cases moved with
  | false => exact reticent_loc _
  | true =>
      cases fp with
      | none => exact reticent_loc _
      | some fp =>
          apply (Prog.Calls.perform trivial).bind
          intro resource
          cases resource with
          | none => exact reticent_loc _
          | some resource =>
              apply (reticent_loc _).bind
              intro ok
              cases ok with
              | false => exact reticent_loc _
              | true =>
                  apply (Prog.Calls.iterate (recvRound_reticent K mem ckpt path) _).bind
                  intro out
                  exact reticent_loc _

theorem beside_negotiate (ckpt path : CStr) : (negotiate ckpt path : P lib _).Calls Beside :=
  ((negotiate_leaves ckpt path).and (negotiate_reticent ckpt path)).mono (fun _ => beside_of_leaves)

theorem beside_recvfile (mem : Memory) (zip : CStr) (K : AESKeys) (k : UInt64) (ckpt path : CStr) :
    (recvfile mem zip K k ckpt path : P lib Int).Calls Beside :=
  ((recvfile_leaves mem zip K k ckpt path).and (recvfile_reticent mem zip K k ckpt path)).mono
    (fun _ => beside_of_leaves)

/-- What `filerail_md5` answers is the digest of the file the path leads to, and it changes nothing. -/
theorem md5_reads (path : CStr) :
    Wp (Unreliable lib) (fun _ _ => True) False (md5 path) t
      (fun r t' => t'.world = t.world ∧ ∀ h, r = some h →
        ∃ X, t.world.fs.fileAt (t.world.target path) = some X ∧ lib.md5.digest X = h) := by
  cases file : t.world.fileIno path with
  | some i =>
      have node := World.fileIno_eq_some file
      have here : ∀ w, w = t.world → w.target path = t.world.target path ∧
          w.fs.node (t.world.target path) = some (.file i) ∧ w.fs.data i = t.world.fs.data i := by
        rintro w rfl
        exact ⟨rfl, node, rfl⟩
      refine wp_mono (md5_wp (steady_still (· = t.world)) here (fun _ _ _ _ _ _ => trivial) trivial
        rfl) ?_
      rintro r t' ⟨⟨_, same⟩, digest, _⟩
      refine ⟨same, fun h answered => ⟨_, Store.fileAt_of_node node, ?_⟩⟩
      exact (digest h answered).symm
  | none =>
      have other := World.fileIno_eq_none file
      unfold md5
      simp only [Prog.bind_eq, Prog.pure_eq]
      apply wp_sys_bind trivial False.elim
      rintro r w' ⟨w, rfl, does | ⟨_, rfl, same⟩⟩
      · rcases does with ⟨i, here, _⟩ | ⟨rfl, _, same⟩
        · exact absurd here (other i)
        · exact wp_ret.mpr ⟨same, fun h impossible => by cases impossible⟩
      · exact wp_ret.mpr ⟨same, fun h impossible => by cases impossible⟩

/-- The same inside a communicating program, under the gate. -/
theorem wp_hash {zip_filename path : CStr} {hs : List Hash} {f : Option Hash → P lib Int}
    (heard : hashes t.log = hs)
    (next : ∀ r t', t'.world = t.world → hashes t'.log = hs →
      (∀ h, r = some h →
        ∃ X, t'.world.fs.fileAt (t'.world.target path) = some X ∧ lib.md5.digest X = h) →
      Wp (Exposed lib) (Gate zip_filename) False (f r) t' (fun _ _ => True)) :
    Wp (Exposed lib) (Gate zip_filename) False (Prog.bind (md5 path).loc f) t (fun _ _ => True) := by
  have reads : Wp (Exposed lib) (fun _ _ => True) False (md5 path).loc t _ :=
    wp_solo_loc (md5_reads path)
  apply wp_bind
  refine wp_mono (wp_guard_mono (wp_and (wp_beside (beside_md5 path) heard) reads)
    (fun _ _ both => both.1)) ?_
  rintro r t' ⟨heard', same, digest⟩
  exact next r t' same heard' (same ▸ digest)

theorem finishReceiving_gate (fp : Option Stream) (status : Int) {h : Hash}
    (home name dir path ckpt : CStr) (heard : hashes t.log = [h]) :
    Wp (Exposed lib) (Gate (name ++ dotZip)) False
      (finishReceiving fp status h home name dir path ckpt) t (fun _ _ => True) := by
  have ends : ∀ {p : L lib Int} {t : SysTape lib}, p.Calls Ordinary →
      Wp (Exposed lib) (Gate (name ++ dotZip)) False p.loc t (fun _ _ => True) :=
    fun calls => wp_mono (wp_beside (beside_loc calls) rfl) (fun _ _ _ => trivial)
  unfold finishReceiving
  simp only [Prog.bind_eq]
  apply wp_solo_bind trivial False.elim
  intro moved w₁ _
  cases moved with
  | false => exact ends (receiverCleanUp_ordinary _ _)
  | true =>
      rw [if_pos rfl]
      refine wp_hash heard (fun r t₂ _ heard digest => ?_)
      cases r with
      | none => exact ends (receiverCleanUp_ordinary _ _)
      | some computed_hash =>
          dsimp only
          split
          · rename_i equal
            subst equal
            obtain ⟨X, content, rfl⟩ := digest _ rfl
            have verified : Verified (name ++ dotZip) t₂ := ⟨X, content, heard⟩
            apply wp_solo_send (fun _ => verified)
            intro answered
            cases answered with
            | false => exact ends (receiverCleanUp_ordinary _ _)
            | true =>
                rw [if_pos rfl]
                apply wp_solo_bind ⟨rfl, ⟨X, content, heard⟩, rfl⟩ False.elim
                intro ok w₃ _
                cases ok with
                | true => exact ends (cleanFiles_ordinary _ _ _ _ _)
                | false => exact ends (receiverCleanUp_ordinary _ _)
          · apply wp_solo_send (fun impossible => absurd impossible (by decide))
            intro answered
            cases answered with
            | true => exact ends (cleanFiles_ordinary _ _ _ _ _)
            | false => exact ends (receiverCleanUp_ordinary _ _)

theorem recvfileHandler_gate (mem : Memory)
    (resource_name resource_dir resource_path ckpt_path : CStr) (K : AESKeys)
    (unheard : hashes t.log = []) :
    Wp (Exposed lib) (Gate (resource_name ++ dotZip)) False
      (recvfileHandler mem resource_name resource_dir resource_path ckpt_path K) t
      (fun _ _ => True) := by
  have ends : ∀ {p : L lib Int} {t : SysTape lib}, p.Calls Ordinary →
      Wp (Exposed lib) (Gate (resource_name ++ dotZip)) False p.loc t (fun _ _ => True) :=
    fun calls => wp_mono (wp_beside (beside_loc calls) rfl) (fun _ _ _ => trivial)
  unfold recvfileHandler
  simp only [Prog.bind_eq]
  apply wp_solo_bind trivial False.elim
  intro home w₁ _
  cases home with
  | none => exact ends (receiverCleanUp_ordinary _ _)
  | some current_dir =>
      apply wp_solo_recv trivial
      intro received
      cases received with
      | none => exact ends (receiverCleanUp_ordinary _ _)
      | some hash =>
          have heard : hashes ((⟨.recv .hash, some hash⟩ : SysEvent lib) ::
              ⟨.loc .getcwd, some current_dir⟩ :: t.log) = [hash] :=
            congrArg (hash :: ·) unheard
          dsimp only
          apply wp_bind
          refine wp_mono (wp_beside (beside_negotiate _ _) heard) ?_
          rintro ⟨fp, status, offset⟩ t₂ heard₂
          cases offset with
          | none => exact ends (receiverCleanUp_ordinary _ _)
          | some offset =>
              dsimp only
              apply wp_bind
              refine wp_mono (wp_beside (beside_recvfile _ _ _ _ _ _) heard₂) ?_
              intro r t₃ heard₃
              split
              · exact ends (receiverCleanUp_ordinary _ _)
              · exact finishReceiving_gate _ _ _ _ _ _ _ heard₃

end Handler

/-! ### The sending handler -/

theorem zipEntry_ordinary (zip : Zip) (path : CStr) : (zipEntry zip path : L lib _).Calls Ordinary := by
  apply (Prog.Calls.perform trivial).bind
  intro opened
  cases opened with
  | none => trivial
  | some zip =>
      apply (Prog.Calls.perform trivial).bind
      intro written
      cases written with
      | none => trivial
      | some zip =>
          apply (Prog.Calls.perform trivial).bind
          intro closed
          cases closed <;> trivial

theorem zipEntries_ordinary {folder : Zip → CStr → L lib (Zip × Bool)}
    (folders : ∀ zip path, (folder zip path).Calls Ordinary) (resource_path : CStr) (zip : Zip)
    (entries : List Name) : (zipEntries folder resource_path zip entries).Calls Ordinary := by
  induction entries generalizing zip with
  | nil => trivial
  | cons entry rest ih =>
      apply (Prog.Calls.perform trivial).bind
      intro found
      cases found with
      | none => trivial
      | some s =>
          have onwards : ∀ out : Zip × Bool, (if out.2 = true then
              zipEntries folder resource_path out.1 rest else .ret (out.1, false)).Calls Ordinary := by
            rintro ⟨zip, ok⟩
            cases ok with
            | true => exact ih zip
            | false => trivial
          dsimp only
          split
          · exact (folders _ _).bind onwards
          · exact (zipEntry_ordinary _ _).bind onwards

theorem zipFolder_ordinary (depth : Nat) (zip : Zip) (resource_path : CStr) :
    (zipFolder depth zip resource_path : L lib _).Calls Ordinary := by
  induction depth generalizing zip resource_path with
  | zero => exact ⟨trivial, fun dead => dead.elim⟩
  | succ depth ih =>
      apply (Prog.Calls.perform trivial).bind
      intro entries
      cases entries with
      | none => trivial
      | some entries => exact zipEntries_ordinary ih _ _ _

theorem zipResource_ordinary (zip_filename resource_name : CStr) (stat_resource : Stat) :
    (zipResource zip_filename resource_name stat_resource : L lib _).Calls Ordinary := by
  apply (Prog.Calls.perform trivial).bind
  intro zip
  cases zip with
  | none => trivial
  | some zip =>
      dsimp only
      split
      · exact (zipFolder_ordinary _ _ _).bind (fun _ => trivial)
      · exact (zipEntry_ordinary _ _).bind (fun _ => trivial)

section Sending

theorem noReceipt_loc {α : Type} {p : L lib α} (calls : p.Calls Ordinary) :
    p.loc.Calls NoReceipt :=
  (beside_loc calls).mono (fun _ => Beside.noReceipt)

theorem senderCleanUp_noReceipt (zip : Option Zip) (status : Int) :
    (senderCleanUp zip status : L lib Int).loc.Calls NoReceipt :=
  noReceipt_loc ((Prog.Calls.perform trivial).bind (fun _ => trivial))

theorem verdictStatus_noReceipt (response_type : UInt8) :
    (verdictStatus response_type : L lib Int).loc.Calls NoReceipt := by
  apply Prog.Calls.lift
  unfold verdictStatus
  split
  · trivial
  · split
    · trivial
    · exact (Prog.Calls.perform trivial).bind (fun _ => trivial)

theorem answerCommand_noReceipt (is_server : Bool) (command_type : UInt8) :
    (answerCommand is_server command_type : P lib _).Calls NoReceipt := by
  unfold answerCommand
  split
  · refine Prog.Calls.bind (.lift ?_) (fun wants => ?_)
    · unfold wantsResume
      split
      · trivial
      · exact (Prog.Calls.perform trivial).bind (fun _ => trivial)
    · split
      · apply (Prog.Calls.perform trivial).bind
        intro sent
        split
        · exact .perform trivial
        · trivial
      · apply (Prog.Calls.perform trivial).bind
        intro sent
        split <;> trivial
  · split
    · trivial
    · exact Prog.Calls.bind (.lift (.perform trivial)) (fun _ => trivial)

theorem sendRound_noReceipt (K : AESKeys) (st : Stream × UInt64) :
    (sendRound K st : P lib _).Calls NoReceipt := by
  obtain ⟨fp, size⟩ := st
  apply Prog.Calls.bind (.lift (.perform trivial))
  intro _
  split
  · trivial
  · apply Prog.Calls.bind (.lift (.perform trivial))
    intro out
    dsimp only
    split
    · trivial
    · split
      · trivial
      · apply (Prog.Calls.perform trivial).bind
        intro sent
        split <;> trivial

theorem sendfile_noReceipt (zip_filename : CStr) (K : AESKeys) (offset : UInt64) :
    (sendfile zip_filename K offset : P lib Int).Calls NoReceipt := by
  have ends : ∀ (fp : Option Stream) (status : Int),
      (transferCleanUp fp none status : L lib Int).loc.Calls NoReceipt :=
    fun fp status => noReceipt_loc (transferCleanUp_ordinary fp none status)
  apply Prog.Calls.bind (.lift (.perform trivial))
  intro fp
  cases fp with
  | none => exact ends _ _
  | some fp =>
      apply Prog.Calls.bind (.lift (.perform trivial))
      intro found
      cases found with
      | none => exact ends _ _
      | some stat_path =>
          apply (Prog.Calls.perform trivial).bind
          intro sent
          cases sent with
          | false => exact ends _ _
          | true =>
              apply Prog.Calls.bind (.lift (.perform trivial))
              intro fp
              cases fp with
              | none => exact ends _ _
              | some fp =>
                  apply Prog.Calls.bind (.lift (.perform trivial))
                  intro ok
                  cases ok with
                  | false => exact ends _ _
                  | true =>
                      apply (Prog.Calls.iterate (sendRound_noReceipt K) _).bind
                      intro out
                      exact ends _ _

theorem finishSending_noReceipt (zip_filename current_dir : CStr) :
    (finishSending zip_filename current_dir : P lib Int).Calls NoReceipt := by
  apply (Prog.Calls.perform trivial).bind
  intro response
  cases response with
  | none => exact senderCleanUp_noReceipt _ _
  | some response_type =>
      apply (verdictStatus_noReceipt _).bind
      intro status
      apply Prog.Calls.bind (noReceipt_loc (rmTree_ordinary _ _))
      intro removed
      cases removed with
      | false => exact senderCleanUp_noReceipt _ _
      | true =>
          apply Prog.Calls.bind (.lift (.perform trivial))
          intro back
          cases back <;> exact senderCleanUp_noReceipt _ _

theorem offerZip_noReceipt (is_server : Bool) (zip_filename current_dir : CStr) (K : AESKeys) :
    (offerZip is_server zip_filename current_dir K : P lib Int).Calls NoReceipt := by
  apply Prog.Calls.bind ((beside_md5 _).mono (fun _ => Beside.noReceipt))
  intro hash
  cases hash with
  | none => exact senderCleanUp_noReceipt _ _
  | some hash =>
      apply (Prog.Calls.perform trivial).bind
      intro sent
      cases sent with
      | false => exact senderCleanUp_noReceipt _ _
      | true =>
          apply (Prog.Calls.perform trivial).bind
          intro command
          cases command with
          | none => exact senderCleanUp_noReceipt _ _
          | some command_type =>
              apply (answerCommand_noReceipt _ _).bind
              intro offset
              cases offset with
              | none => exact senderCleanUp_noReceipt _ _
              | some offset =>
                  apply (sendfile_noReceipt _ _ _).bind
                  intro status
                  split
                  · exact senderCleanUp_noReceipt _ _
                  · exact finishSending_noReceipt _ _

theorem sendfileHandler_noReceipt (is_server : Bool) (resource_dir resource_name : CStr)
    (stat_resource : Stat) (K : AESKeys) :
    (sendfileHandler is_server resource_dir resource_name stat_resource K : P lib Int).Calls
      NoReceipt := by
  apply Prog.Calls.bind (.lift (.perform trivial))
  intro home
  cases home with
  | none => exact Prog.Calls.bind (.lift (.perform trivial)) (fun _ => trivial)
  | some current_dir =>
      apply Prog.Calls.bind (.lift (.perform trivial))
      intro moved
      cases moved with
      | false => exact Prog.Calls.bind (.lift (.perform trivial)) (fun _ => trivial)
      | true =>
          apply Prog.Calls.bind (noReceipt_loc (zipResource_ordinary _ _ _))
          intro out
          obtain ⟨zip, ok⟩ := out
          cases ok with
          | false => exact senderCleanUp_noReceipt _ _
          | true =>
              apply Prog.Calls.bind (.lift (.perform trivial))
              intro _
              exact offerZip_noReceipt _ _ _ _

end Sending

/-! ### The two programs -/

section Programs

variable {w : World} {t : SysTape lib} {log : List (SysEvent lib)}

/-- The receiving handler behind an exchange in which no hash was announced. -/
theorem receives_watched {f : Int → P lib Int} (returns : ∀ status, ∃ r, f status = .ret r)
    (unheard : hashes t.log = []) (mem : Memory)
    (resource_name resource_dir resource_path ckpt_path : CStr) (K : AESKeys) :
    Wp (Exposed lib) Watched False
      (Prog.bind (recvfileHandler mem resource_name resource_dir resource_path ckpt_path K) f) t
      (fun _ _ => True) := by
  apply wp_bind
  refine wp_mono (wp_guard_mono (recvfileHandler_gate mem resource_name resource_dir resource_path
    ckpt_path K unheard) (fun _ _ => Gate.watched)) ?_
  intro status t' _
  obtain ⟨r, same⟩ := returns status
  rw [same]
  exact wp_ret.mpr trivial

theorem serverPutFile_watched (unheard : hashes t.log = []) (mem : Memory) (ckpt_path : CStr)
    (K : AESKeys) (resource : ResourceHeader) :
    Wp (Exposed lib) Watched False (serverPutFile mem ckpt_path K resource) t (fun _ _ => True) :=
  receives_watched (fun _ => ⟨_, rfl⟩) unheard _ _ _ _ _ _

theorem rm_watched {hs : List Hash} (heard : hashes t.log = hs) (path : CStr) :
    Wp (Exposed lib) Watched False (rm path).loc t (fun _ t' => hashes t'.log = hs) := by
  have gated : Wp (Exposed lib) (Gate []) False (rm path).loc t (fun _ t' => hashes t'.log = hs) :=
    wp_beside (beside_loc (rmTree_ordinary _ path)) heard
  exact wp_guard_mono gated (fun _ _ => Gate.watched)

theorem Grant.watched {mem : Memory} {ckpt_path : CStr} {K : AESKeys} {todo : P lib Int}
    (grant : Grant mem ckpt_path K log todo) :
    Wp (Exposed lib) Watched False todo ⟨w, log⟩ (fun _ _ => True) := by
  cases grant with
  | create fits => exact serverPutFile_watched rfl mem ckpt_path K _
  | replace fits =>
      apply wp_bind
      refine wp_mono (rm_watched rfl _) ?_
      intro removed t' unheard
      cases removed with
      | true => exact serverPutFile_watched unheard mem ckpt_path K _
      | false => exact wp_ret.mpr trivial
  | fetch kind =>
      exact wp_noReceipt ((sendfileHandler_noReceipt _ _ _ _ _).bind (fun _ => trivial)) rfl

theorem Warrant.watched {stack : Stack} {ckpt_path res_path des_path : CStr} {K : AESKeys}
    {todo : P lib Int} (warrant : Warrant stack ckpt_path K res_path des_path log todo) :
    Wp (Exposed lib) Watched False todo ⟨w, log⟩ (fun _ _ => True) := by
  cases warrant with
  | admitted kind parsed =>
      exact wp_noReceipt ((sendfileHandler_noReceipt _ _ _ _ _).bind (fun _ => trivial)) rfl
  | confirmed kind parsed agrees =>
      exact wp_noReceipt ((sendfileHandler_noReceipt _ _ _ _ _).bind (fun _ => trivial)) rfl
  | offered parsed vacated fits =>
      refine receives_watched (fun _ => ⟨_, rfl⟩) ?_ _ _ _ _ _ _
      cases vacated <;> rfl

theorem Watched.asking {a : Act (Sys lib.md5.Ctx) Schema.Val} (unheard : hashes t.log = [])
    (asking : Asking a) : Watched t (some a) := by
  cases a with
  | loc e =>
      cases e with
      | zipExtract path dir => exact asking.elim
      | _ => trivial
  | send k v =>
      cases k with
      | code => exact fun _ heard => absurd unheard heard
      | _ => trivial
  | recv k => trivial

theorem hashes_asking {a : Act (Sys lib.md5.Ctx) Schema.Val} (asking : Asking a)
    (r : a.Answer Sys.Resp) (log : List (SysEvent lib)) : hashes (⟨a, r⟩ :: log) = hashes log := by
  apply hashes_cons
  cases a with
  | loc e =>
      cases e with
      | zipExtract path dir => exact asking
      | _ => trivial
  | send k v => trivial
  | recv k =>
      cases k with
      | hash => exact asking rfl
      | _ => trivial

/-- A program that first asks is watched if what it goes on to do is. -/
theorem Asks.watched {Q : List (SysEvent lib) → P lib Int → Prop} {program : P lib Int}
    (asks : Asks Q [] program)
    (points : ∀ w log todo, Q log todo → Wp (Exposed lib) Watched False todo ⟨w, log⟩ (fun _ _ => True))
    {a : Act (Sys lib.md5.Ctx) Schema.Val} {next : a.Answer Sys.Resp → P lib Int}
    (run : Prog.Reach (Exposed lib) (program, ⟨w, []⟩) (.call a next, t)) : Watched t (some a) := by
  have keeps : ∀ (t : SysTape lib) a r t', Asking a → hashes t.log = [] → Exposed lib t a r t' →
      hashes t'.log = [] := by
    intro t a r t' asking unheard answer
    rw [solo_logs answer, hashes_asking asking]
    exact unheard
  rcases reach_leads exposed_logs keeps asks rfl run with
    ⟨point | ⟨asking, _⟩, unheard⟩ | ⟨todo, t₁, point, _, _, rest⟩
  · exact (points t.world _ _ point).sound _ _ .refl
  · exact Watched.asking unheard asking
  · exact (points t₁.world _ _ point).sound _ _ rest

/-- The same of a client and whatever a server sends. -/
theorem runOperation_verified {stack : Stack} {ckpt_path operation : CStr} {K : AESKeys}
    {res_path des_path : Option CStr} {a : Act (Sys lib.md5.Ctx) Schema.Val}
    {next : a.Answer Sys.Resp → P lib Int}
    (run : Prog.Reach (Exposed lib)
      (runOperation stack ckpt_path K operation res_path des_path, ⟨w, []⟩) (.call a next, t)) :
    Watched t (some a) := by
  refine (runOperation_leads operation res_path des_path).watched ?_ run
  rintro w log todo ⟨res, des, _, _, warrant⟩
  exact warrant.watched

end Programs

/-! ### Two extractions -/

/-- A client that is to fetch `/a` into `/d`, from a server that sends an empty archive. -/
@[irreducible] def fetchedRun : P reference Int × SysTape reference :=
  Prog.play (Player.solo (machine reference True).onTape)
    (List.replicate 3 (.loc .works) ++ [.taken, .taken, .frame .code Response.ok.code,
      .frame .resource ⟨0, zeros _, zeros _⟩, .loc .works, .taken, .loc .works,
      .frame .hash (digestOf []), .loc .works, .taken, .loc .works,
      .frame .resource ⟨0, zeros _, zeros _⟩] ++ List.replicate 13 (.loc .works) ++ [.taken, .loc .works])
    (runOperation (Stack.zeros []) [slash, 99] ⟨zeros _, zeros _⟩ GET_OPERATION (some [slash, 97])
      (some [slash, 100]), ⟨⟨smallStore, []⟩, []⟩)

theorem reach_fetchedRun :
    Prog.Reach (Exposed reference)
      (runOperation (Stack.zeros []) [slash, 99] ⟨zeros _, zeros _⟩ GET_OPERATION (some [slash, 97])
        (some [slash, 100]), ⟨⟨smallStore, []⟩, []⟩) fetchedRun := by
  unfold fetchedRun
  exact reach_play _ _ _

theorem fetchedRun_extracts : fetchedRun.2.log.any extracted = true := by decide +kernel

theorem runOperation_verified_small : ∃ path dir next t,
    Prog.Reach (Exposed reference)
      (runOperation (Stack.zeros []) [slash, 99] ⟨zeros _, zeros _⟩ GET_OPERATION (some [slash, 97])
        (some [slash, 100]), ⟨⟨smallStore, []⟩, []⟩)
      (.call (.loc (.zipExtract path dir)) next, t) ∧ Extractable path t := by
  obtain ⟨event, logged, found⟩ := List.any_eq_true.mp fetchedRun_extracts
  obtain ⟨path, dir, rfl⟩ := eq_of_extracted found
  rcases reach_logged reach_fetchedRun logged with already | ⟨next, t, run, _⟩
  · cases already
  · exact ⟨path, dir, next, t, run, runOperation_verified run⟩

end Filerail
