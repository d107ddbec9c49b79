/-
Module: Filerail.Proofs.Conduct
Layer: Proofs
Purpose: The receiving handler when nothing can be said about its machine: any call may fail, and the
  files may hold anything. It still keeps to the protocol and never answers OK to a hash that it has
  not computed itself. Its local functions enter only through the calls they can make.
Imports: Filerail.Proofs.Transfer
Main exports: Ordinary, Vouches, recvfileHandler_conforms
-/
import Filerail.Proofs.Transfer

namespace Filerail

open FileStore ProgramLogic

variable {lib : Lib}

/-! ### What the local functions call -/

/-- Neither the hash nor the extraction, and none of the calls the handlers are watched at. -/
def Ordinary : Sys lib.md5.Ctx → Prop
  | .protocolNotFollowed => False
  | .remaining _ => False
  | .md5Final _ => False
  | .zipExtract _ _ => False
  | _ => True

section Calls

variable {P : Sys lib.md5.Ctx → Prop}

theorem closeIf_calls (closes : ∀ fp, P (.fclose fp)) (fp : Option Stream) :
    (closeIf fp : L lib Unit).Calls P := by
  cases fp with
  | none => trivial
  | some fp => exact .perform (closes fp)

theorem transferCleanUp_calls (closes : ∀ fp, P (.fclose fp))
    (timeout : ∀ seconds, P (.setRcvTimeout seconds)) (fp fckpt : Option Stream) (status : Int) :
    (transferCleanUp fp fckpt status : L lib Int).Calls P := by
  refine (closeIf_calls closes fp).bind (fun _ => (closeIf_calls closes fckpt).bind (fun _ => ?_))
  refine (Prog.Calls.perform (timeout _)).bind (fun ok => ?_)
  split <;> trivial

theorem receiverCleanUp_calls (closes : ∀ fp, P (.fclose fp)) (fp : Option Stream) (status : Int) :
    (receiverCleanUp fp status : L lib Int).Calls P :=
  (closeIf_calls closes fp).bind (fun _ => trivial)

theorem openPartial_calls (opens : ∀ path mode, P (.fopen path mode)) (reads : ∀ fp, P (.fgetc fp))
    (dies : P .crash) (path : CStr) (offset : UInt64) :
    (openPartial path offset : L lib _).Calls P := by
  unfold openPartial
  split
  · exact (Prog.Calls.perform (opens _ _)).bind (fun _ => trivial)
  · refine (Prog.Calls.perform (opens _ _)).bind (fun fp => Prog.Calls.iterate (fun st => ?_) _)
    obtain ⟨i, fp⟩ := st
    unfold seekRound
    dsimp only
    split
    · cases fp with
      | none => exact Prog.Calls.bind (.perform dies) (fun dead => nomatch dead)
      | some fp =>
          refine (Prog.Calls.perform (reads _)).bind (fun out => ?_)
          obtain ⟨c, fp⟩ := out
          cases c <;> trivial
    · trivial

theorem writeCheckpoint_calls (opens : ∀ path mode, P (.fopen path mode))
    (writes : ∀ fp buffer n, P (.fwrite fp buffer n)) (flushes : ∀ fp, P (.fflush fp))
    (closes : ∀ fp, P (.fclose fp)) (renames : ∀ path path', P (.rename path path'))
    (image : List UInt8) (tmp ckpt : CStr) :
    (writeCheckpoint image tmp ckpt : L lib _).Calls P := by
  refine (Prog.Calls.perform (opens _ _)).bind (fun fp => ?_)
  cases fp with
  | none => trivial
  | some fp =>
      refine (Prog.Calls.perform (writes _ _ _)).bind (fun out => ?_)
      obtain ⟨written, fckpt⟩ := out
      dsimp only
      split
      · trivial
      · refine (Prog.Calls.perform (flushes _)).bind (fun fp => ?_)
        refine (Prog.Calls.perform (closes _)).bind (fun _ => ?_)
        exact (Prog.Calls.perform (renames _ _)).bind (fun _ => trivial)

/-- The path itself, or one below it. -/
def Within (path path' : CStr) : Prop :=
  path' = path ∨ path ++ [slash] <+: path'

instance (path path' : CStr) : Decidable (Within path path') :=
  inferInstanceAs (Decidable (path' = path ∨ path ++ [slash] <+: path'))

theorem Within.refl (path : CStr) : Within path path :=
  Or.inl rfl

theorem Within.entry (path name : CStr) : Within path (path ++ slash :: name) :=
  Or.inr ⟨name, (List.append_cons path slash name).symm⟩

theorem Within.trans {path path' path'' : CStr} (first : Within path path')
    (second : Within path' path'') : Within path path'' := by
  rcases first with rfl | below
  · exact second
  · right
    rcases second with rfl | deeper
    · exact below
    · exact below.trans ((List.prefix_append _ _).trans deeper)

/-- The path itself, or that of something in the tree below it: the names on the way, each after a
    slash. -/
def Under (path path' : CStr) : Prop :=
  ∃ below : Loc, path' = path ++ below.flatMap (fun name => slash :: name.1)

theorem Under.refl (path : CStr) : Under path path :=
  ⟨[], (List.append_nil path).symm⟩

theorem Under.entry (path : CStr) (name : Name) : Under path (path ++ slash :: name.1) :=
  ⟨[name], by rw [List.flatMap_singleton]⟩

theorem Under.trans {path path' path'' : CStr} (first : Under path path')
    (second : Under path' path'') : Under path path'' := by
  obtain ⟨below, rfl⟩ := first
  obtain ⟨deeper, rfl⟩ := second
  exact ⟨below ++ deeper, by rw [List.flatMap_append, List.append_assoc]⟩

theorem Under.within {path path' : CStr} (under : Under path path') : Within path path' := by
  obtain ⟨below, rfl⟩ := under
  cases below with
  | nil => exact Or.inl (List.append_nil path)
  | cons name rest =>
      rw [List.flatMap_cons, List.cons_append]
      exact .entry path _

theorem rmEntries_calls {remove : CStr → L lib Bool} {dir : CStr} (looks : ∀ path, P (.lstat path))
    (unlinks : ∀ name : Name, P (.unlink (dir ++ slash :: name.1)))
    (inner : ∀ name : Name, (remove (dir ++ slash :: name.1)).Calls P) (names : List Name) :
    (rmEntries remove dir names).Calls P := by
  induction names with
  | nil => trivial
  | cons entry rest ih =>
      refine (Prog.Calls.perform (looks _)).bind (fun st => ?_)
      have onwards : ∀ ok : Bool,
          (if ok = true then rmEntries remove dir rest else Prog.ret false).Calls P := by
        intro ok
        cases ok with
        | true => exact ih
        | false => trivial
      cases st with
      | none => trivial
      | some st =>
          dsimp only
          split
          · exact (inner _).bind onwards
          · exact (Prog.Calls.perform (unlinks _)).bind onwards

theorem rmTree_calls (looks : ∀ path, P (.lstat path)) (lists : ∀ path, P (.opendir path))
    (dies : P .crash) (depth : Nat) (path : CStr)
    (unlinks : ∀ path', Under path path' → P (.unlink path'))
    (rmdirs : ∀ path', Under path path' → P (.rmdir path')) :
    (rmTree depth path : L lib Bool).Calls P := by
  induction depth generalizing path with
  | zero => exact Prog.Calls.bind (.perform dies) (fun dead => nomatch dead)
  | succ depth ih =>
      refine (Prog.Calls.perform (looks _)).bind (fun st => ?_)
      cases st with
      | none => trivial
      | some st =>
          dsimp only
          split
          · exact .perform (unlinks _ (.refl path))
          · exact .perform (unlinks _ (.refl path))
          · refine (Prog.Calls.perform (lists _)).bind (fun names => ?_)
            cases names with
            | none => trivial
            | some names =>
                have below : ∀ name : Name,
                    (rmTree depth (path ++ slash :: name.1) : L lib Bool).Calls P :=
                  fun name => ih _ (fun _ inside => unlinks _ ((Under.entry path name).trans inside))
                    (fun _ inside => rmdirs _ ((Under.entry path name).trans inside))
                refine (rmEntries_calls looks (fun name => unlinks _ (.entry path name)) below
                  names).bind (fun ok => ?_)
                cases ok with
                | true => exact .perform (rmdirs _ (.refl path))
                | false => trivial
          · trivial

theorem md5Loop_calls (reads : ∀ fp n, P (.fread fp n)) (st : lib.md5.Ctx × Stream × Nat) :
    (Prog.iterate md5Round st : L lib _).Calls P := by
  refine Prog.Calls.iterate (fun st => ?_) st
  obtain ⟨ctx, fp, size⟩ := st
  unfold md5Round
  dsimp only
  split
  · trivial
  · refine (Prog.Calls.perform (reads _ _)).bind (fun out => ?_)
    split <;> trivial

end Calls

theorem closeIf_ordinary (fp : Option Stream) : (closeIf fp : L lib Unit).Calls Ordinary :=
  closeIf_calls (fun _ => trivial) fp

theorem transferCleanUp_ordinary (fp fckpt : Option Stream) (status : Int) :
    (transferCleanUp fp fckpt status : L lib Int).Calls Ordinary :=
  transferCleanUp_calls (fun _ => trivial) (fun _ => trivial) fp fckpt status

theorem receiverCleanUp_ordinary (fp : Option Stream) (status : Int) :
    (receiverCleanUp fp status : L lib Int).Calls Ordinary :=
  receiverCleanUp_calls (fun _ => trivial) fp status

theorem openPartial_ordinary (path : CStr) (offset : UInt64) :
    (openPartial path offset : L lib _).Calls Ordinary :=
  openPartial_calls (fun _ _ => trivial) (fun _ => trivial) trivial path offset

theorem writeCheckpoint_ordinary (image : List UInt8) (tmp ckpt : CStr) :
    (writeCheckpoint image tmp ckpt : L lib _).Calls Ordinary :=
  writeCheckpoint_calls (fun _ _ => trivial) (fun _ _ _ => trivial) (fun _ => trivial)
    (fun _ => trivial) (fun _ _ => trivial) image tmp ckpt

theorem rmTree_ordinary (depth : Nat) (path : CStr) :
    (rmTree depth path : L lib Bool).Calls Ordinary :=
  rmTree_calls (fun _ => trivial) (fun _ => trivial) trivial depth path (fun _ _ => trivial)
    (fun _ _ => trivial)

theorem cleanFiles_ordinary (fp : Option Stream) (status : Int) (home path ckpt : CStr) :
    (cleanFiles fp status home path ckpt : L lib Int).Calls Ordinary := by
  refine (Prog.Calls.perform trivial).bind (fun moved => ?_)
  cases moved with
  | false => exact receiverCleanUp_ordinary _ _
  | true =>
      refine (rmTree_ordinary _ path).bind (fun removed => ?_)
      cases removed with
      | false => exact receiverCleanUp_ordinary _ _
      | true =>
          refine (rmTree_ordinary _ ckpt).bind (fun removed => ?_)
          cases removed with
          | false => exact receiverCleanUp_ordinary _ _
          | true => exact receiverCleanUp_ordinary _ _

theorem md5Loop_ordinary (st : lib.md5.Ctx × Stream × Nat) :
    (Prog.iterate md5Round st : L lib _).Calls Ordinary :=
  md5Loop_calls (fun _ _ => trivial) st

/-! ### Local functions of which nothing is known -/

section Blind

variable {env : SysEnv lib} {faulty : Prop} {α : Type}
  {guard : SysTape lib → Option (Sys lib.md5.Ctx) → Prop} {t : SysTape lib}

theorem Ordinary.unwatched {e : Sys lib.md5.Ctx} (ordinary : Ordinary e) : Unwatched (some e) := by
  cases e <;> trivial

theorem wp_blind {e : Sys lib.md5.Ctx} {f : e.Resp → L lib α} {post : α → SysTape lib → Prop}
    (here : guard t (some e))
    (next : ∀ r w', Wp (tapeSem env (sysSem lib faulty)) guard False (f r) (Tape.after t e r w')
      post) : Wp (tapeSem env (sysSem lib faulty)) guard False (Prog.bind (sys e) f) t post :=
  wp_sys_bind here False.elim (fun r w' _ => next r w')

theorem wp_ordinary {p : L lib α} (calls : p.Calls Ordinary)
    (allowed : ∀ t e, Unwatched e → guard t e) :
    Wp (tapeSem env (sysSem lib faulty)) guard False p t (fun _ t' => t.log ⊆ t'.log) := by
  refine wp_calls calls (fun t' : SysTape lib => t.log ⊆ t'.log) (List.Subset.refl _) ?_
    (fun _ _ ordinary _ => allowed _ _ ordinary.unwatched) (fun _ _ => allowed _ none trivial)
  rintro t' e r _ _ kept ⟨_, _, _, _, rfl⟩
  exact List.Subset.trans kept (List.subset_cons_self _ _)

theorem transferCleanUp_returns (allowed : ∀ t e, Unwatched e → guard t e)
    (fp fckpt : Option Stream) (status : Int) :
    Wp (tapeSem env (sysSem lib faulty)) guard False (transferCleanUp fp fckpt status) t
      (fun r _ => r = status ∨ r = -1) := by
  unfold transferCleanUp
  simp only [Prog.bind_eq, Prog.pure_eq]
  apply wp_bind
  refine wp_mono (wp_ordinary (closeIf_ordinary fp) allowed) (fun _ t₁ _ => ?_)
  apply wp_bind
  refine wp_mono (wp_ordinary (closeIf_ordinary fckpt) allowed) (fun _ t₂ _ => ?_)
  refine wp_blind (allowed _ _ trivial) (fun ok w' => ?_)
  cases ok with
  | true => exact wp_ret.mpr (Or.inl rfl)
  | false => exact wp_ret.mpr (Or.inr rfl)

theorem receiverCleanUp_returns (allowed : ∀ t e, Unwatched e → guard t e) (fp : Option Stream)
    (status : Int) :
    Wp (tapeSem env (sysSem lib faulty)) guard False (receiverCleanUp fp status) t
      (fun r _ => r = status) := by
  apply wp_bind
  refine wp_mono (wp_ordinary (closeIf_ordinary fp) allowed) (fun _ _ _ => ?_)
  exact wp_ret.mpr rfl

/-- A hash that `filerail_md5` answers has been computed. -/
def Computed (h : Hash) (log : List (SysEvent lib)) : Prop :=
  ∃ ctx, (⟨.loc (.md5Final ctx), h⟩ : SysEvent lib) ∈ log

theorem md5_computed (allowed : ∀ t e, Unwatched e → guard t e) (path : CStr) :
    Wp (tapeSem env (sysSem lib faulty)) guard False (md5 path) t
      (fun r t' => ∀ h, r = some h → Computed h t'.log) := by
  unfold md5
  simp only [Prog.bind_eq, Prog.pure_eq]
  refine wp_blind (allowed _ _ trivial) (fun fp w' => ?_)
  cases fp with
  | none => exact wp_ret.mpr (fun h impossible => nomatch impossible)
  | some fp =>
      unfold md5Opened
      simp only [Prog.bind_eq, Prog.pure_eq]
      refine wp_blind (allowed _ _ trivial) (fun st w' => ?_)
      cases st with
      | none => exact wp_ret.mpr (fun h impossible => nomatch impossible)
      | some st =>
          apply wp_bind
          refine wp_mono (wp_ordinary (md5Loop_ordinary _) allowed) ?_
          rintro ⟨fp, ctx⟩ t₁ _
          cases ctx with
          | none =>
              refine wp_blind (allowed _ _ trivial) (fun _ w' => ?_)
              exact wp_ret.mpr (fun h impossible => nomatch impossible)
          | some ctx =>
              refine wp_blind (allowed _ _ trivial) (fun h w' => ?_)
              refine wp_blind (allowed _ _ trivial) (fun _ w' => wp_ret.mpr ?_)
              rintro _ ⟨⟩
              exact ⟨ctx, List.mem_cons_of_mem _ List.mem_cons_self⟩

end Blind

/-! ### The receiving handler -/

section Handler

variable {env : SysEnv lib} {faulty lossy : Prop} {P' : Type} {proto : Protocol P' Schema.Val}
  {put : Phase → P'} {sender : Side} {terms : Terms} {t : SysTape lib} {h : Hash}

/-- An OK in answer to a transfer is only sent for a hash that has been computed. -/
def Vouches (put : Phase → P') (s : Endpoint (SysTape lib) P') :
    Option (Act (Sys lib.md5.Ctx) Schema.Val) → Prop
  | some (.send .code c) =>
      ∀ h, s.pos = put (.verdict h) → c = Response.ok.code → Computed h s.tape.log
  | _ => True

/-- What the receiver keeps to whatever happens on its machine. -/
def Behaves (proto : Protocol P' Schema.Val) (put : Phase → P') (side : Side)
    (s : Endpoint (SysTape lib) P') (a : Option (Act (Sys lib.md5.Ctx) Schema.Val)) : Prop :=
  Conforms proto put side s a ∧ Vouches put s a

theorem behaves_loc {side : Side} {p : P'} {b : Bool} {e : Option (Sys lib.md5.Ctx)}
    (unwatched : Unwatched e) : Behaves proto put side ⟨t, p, b⟩ (e.map .loc) := by
  refine ⟨conforms_loc unwatched, ?_⟩
  cases e <;> trivial

theorem behaves_recv {side : Side} {p : P'} {b : Bool} {k : Schema}
    (obeys : Obeys (E := Sys lib.md5.Ctx) proto side ⟨t, p, b⟩ (some (.recv k))) :
    Behaves proto put side ⟨t, p, b⟩ (some (.recv k)) :=
  ⟨conforms_recv obeys, trivial⟩

/-- A code other than OK needs no vouching. -/
theorem behaves_code {side : Side} {p : P'} {b : Bool} {c : UInt8} (other : c ≠ Response.ok.code)
    (obeys : Obeys (E := Sys lib.md5.Ctx) proto side ⟨t, p, b⟩ (some (.send .code c))) :
    Behaves proto put side ⟨t, p, b⟩ (some (.send .code c)) :=
  ⟨conforms_send obeys, fun _ _ same => absurd same other⟩

/-- A local function inside the handler. -/
theorem wp_part {α β : Type} {p : L lib α} {f : α → P lib β} {pos : P'} {b : Bool}
    {post : β → Endpoint (SysTape lib) P' → Prop} (calls : p.Calls Ordinary)
    (next : ∀ a t', Wp (endpointSem proto sender.other lossy (tapeSem env (sysSem lib faulty)))
      (Behaves proto put sender.other) False (f a) ⟨t', pos, b⟩ post) :
    Wp (endpointSem proto sender.other lossy (tapeSem env (sysSem lib faulty)))
      (Behaves proto put sender.other) False (Prog.bind p.loc f) ⟨t, pos, b⟩ post := by
  apply wp_loc_bind
  exact wp_mono (wp_ordinary calls (fun _ _ => behaves_loc)) (fun a t' _ => next a t')

/-- A local function at the end of the handler. -/
theorem wp_last {α : Type} {p : L lib α} {pos : P'} {b : Bool}
    {post : α → Endpoint (SysTape lib) P' → Prop} (calls : p.Calls Ordinary)
    (fits : ∀ a t', t.log ⊆ t'.log → post a ⟨t', pos, b⟩) :
    Wp (endpointSem proto sender.other lossy (tapeSem env (sysSem lib faulty)))
      (Behaves proto put sender.other) False p.loc ⟨t, pos, b⟩ post := by
  apply wp_endpoint_loc
  exact wp_mono (wp_ordinary calls (fun _ _ => behaves_loc)) fits

/-- The offset, when the negotiation comes to one, is that of the conversation; else the handler is to
    return `-1`. -/
def Agreed (put : Phase → P') (h : Hash) (r : Option Stream × Int × Option UInt64)
    (s : Endpoint (SysTape lib) P') : Prop :=
  match r.2.2 with
  | some k => s.pos = put (.header h k) ∧ s.broken = false
  | none => r.2.1 = -1

/-- When the handler returns `0` after an OK, it has extracted the archive. -/
def Unpacked (put : Phase → P') (r : Int) (s : Endpoint (SysTape lib) P') : Prop :=
  r = -1 ∨ ∀ h, s.pos = put (.done h Response.ok.code) →
    ∃ path dir, (⟨.loc (.zipExtract path dir), true⟩ : SysEvent lib) ∈ s.tape.log

theorem restart_conforms (carries : Carries proto put sender terms) (fp : Option Stream)
    (status : Int) :
    Wp (endpointSem proto sender.other lossy (tapeSem env (sysSem lib faulty)))
      (Behaves proto put sender.other) False (restart fp status) ⟨t, put (.command h), false⟩
      (Agreed put h) := by
  unfold restart
  simp only [Prog.bind_eq, Prog.pure_eq]
  refine wp_transmit carries rfl (Or.inr rfl) (behaves_code (by decide)) ?_ ?_
  · rw [if_pos rfl, wp_ret, Phase.next_restart]
    exact ⟨rfl, rfl⟩
  · intro _
    rw [if_neg Bool.false_ne_true, wp_ret]
    exact rfl

theorem offerResume_conforms (carries : Carries proto put sender terms) (fp : Stream)
    {ckpt : Checkpoint} (may : terms.offset h ckpt.offset) :
    Wp (endpointSem proto sender.other lossy (tapeSem env (sysSem lib faulty)))
      (Behaves proto put sender.other) False (offerResume fp ckpt) ⟨t, put (.command h), false⟩
      (Agreed put h) := by
  unfold offerResume
  simp only [Prog.bind_eq, Prog.pure_eq]
  refine wp_transmit carries rfl (Or.inl rfl) (behaves_code (by decide)) ?_ ?_
  · rw [if_pos rfl, Phase.next_resume]
    refine wp_receive (p := .answer h) (k := .code) carries (by rw [Side.other_other]; rfl) rfl
      behaves_recv False.elim ?_ ?_
    · intro c known
      dsimp only
      rcases known with rfl | rfl
      · rw [if_pos rfl, Phase.next_ok]
        refine wp_transmit carries rfl may (fun obeys => ⟨conforms_send obeys, trivial⟩) ?_ ?_
        · rw [if_pos rfl, wp_ret, Phase.next_offset]
          exact ⟨rfl, rfl⟩
        · intro _
          rw [if_neg Bool.false_ne_true, wp_ret]
          exact rfl
      · rw [if_neg (by decide), if_pos rfl, wp_ret, Phase.next_abort]
        exact ⟨rfl, rfl⟩
    · intro _
      exact wp_ret.mpr rfl
  · intro _
    rw [if_neg Bool.false_ne_true, wp_ret]
    exact rfl

/-- Whatever offset a checkpoint at the path offers, the terms allow it. -/
def Offers (inv : World → Prop) (terms : Terms) (h : Hash) (path : CStr) : Prop :=
  ∀ w w' i, inv w → inv w' → w.fs.node (w.target path) = some (.file i) →
    ((w'.fs.data i).take sizeofCheckpoint).length = sizeofCheckpoint →
    terms.offset h (Checkpoint.ofImage ((w'.fs.data i).take sizeofCheckpoint)).offset

theorem negotiate_conforms (carries : Carries proto put sender terms)
    {quiet : List (SysEvent lib) → Prop} {inv : World → Prop} (steady : Steady env quiet inv)
    (calm : quiet t.log) (holds : inv t.world) {path : CStr} (offers : Offers inv terms h path)
    (resource_path : CStr) :
    Wp (endpointSem proto sender.other lossy (tapeSem env (sysSem lib faulty)))
      (Behaves proto put sender.other) False (negotiate path resource_path)
      ⟨t, put (.command h), false⟩ (Agreed put h) := by
  have call : ∀ {t : SysTape lib} {e : Sys lib.md5.Ctx}, Unwatched (some e) →
      Behaves proto put sender.other ⟨t, put (.command h), false⟩ (some (.loc e)) :=
    fun unwatched => behaves_loc (e := some _) unwatched
  unfold negotiate
  simp only [Prog.bind_eq, Prog.pure_eq]
  refine wp_calm_call steady calm holds (e := .lstat path) trivial (call trivial)
    (fun found t₁ calm holds _ => ?_)
  cases found with
  | none => exact restart_conforms carries _ _
  | some _ =>
      refine wp_calm_call steady calm holds (e := .access path .r) trivial (call trivial)
        (fun readable t₂ calm holds _ => ?_)
      cases readable with
      | false => exact wp_ret.mpr rfl
      | true =>
          rw [if_pos rfl]
          refine wp_calm_call steady calm holds (e := .fopen path .rb) (by simp [Reads])
            (call trivial) (fun fp t₃ calm holds opened => ?_)
          cases fp with
          | none => exact restart_conforms carries _ _
          | some fp =>
              have node : ∃ i, t₃.world.fs.node (t₃.world.target path) = some (.file i) ∧
                  fp = .opened i := by
                rcases opened with (⟨i, file, same, _⟩ | ⟨no, _⟩) | ⟨_, no, _⟩
                · exact ⟨i, file, Option.some.inj same⟩
                · cases no
                · cases no
              obtain ⟨i, node, rfl⟩ := node
              have before := holds
              refine wp_calm_call steady calm holds (e := .fread _ _) trivial (call trivial)
                (fun out t₄ calm holds read => ?_)
              obtain ⟨bytes, fp⟩ := out
              dsimp only
              split
              · exact restart_conforms carries _ _
              · rename_i complete
                rw [not_not] at complete
                have may : terms.offset h (Checkpoint.ofImage bytes).offset := by
                  rcases read with ⟨same, _⟩ | ⟨_, part, short, _, same, _⟩
                  · have same : bytes = (t₄.world.fs.data i).take sizeofCheckpoint :=
                      congrArg Prod.fst same
                    rw [same] at complete ⊢
                    exact offers _ _ i before holds node complete
                  · have same : bytes = part := congrArg Prod.fst same
                    rw [same] at complete
                    omega
                split
                · exact restart_conforms carries _ _
                · refine wp_calm_call steady calm holds (e := .stat resource_path) trivial
                    (call trivial) (fun st t₅ calm holds _ => ?_)
                  cases st with
                  | none => exact restart_conforms carries _ _
                  | some st =>
                      dsimp only
                      split
                      · exact restart_conforms carries _ _
                      · exact offerResume_conforms carries fp may

/-- After a transfer that returns `0` the verdict is due. -/
def Due (put : Phase → P') (h : Hash) (r : Int) (s : Endpoint (SysTape lib) P') : Prop :=
  r = -1 ∨ (s.pos = put (.verdict h) ∧ s.broken = false)

/-- The head of the packet loop: the bytes still to come are those of the conversation. -/
def Expecting (put : Phase → P') (h : Hash) (st : Stream × UInt64 × UInt64)
    (s : Endpoint (SysTape lib) P') : Prop :=
  ∃ pos, s.pos = put (Phase.rest h pos st.2.1) ∧ s.broken = false

theorem recvRound_conforms (carries : Carries proto put sender terms) (K : AESKeys) (mem : Memory)
    (ckpt path : CStr) {st : Stream × UInt64 × UInt64} {s : Endpoint (SysTape lib) P'}
    (expecting : Expecting put h st s) :
    Wp (endpointSem proto sender.other lossy (tapeSem env (sysSem lib faulty)))
      (Behaves proto put sender.other) False (recvRound K mem ckpt path st) s
      (LoopPost False (Expecting put h) (fun st _ => st.2.1.toNat) st.2.1.toNat
        (fun out s => out.2.2 = true → s.pos = put (.verdict h) ∧ s.broken = false)) := by
  obtain ⟨fp, size, offset⟩ := st
  obtain ⟨t, p, b⟩ := s
  obtain ⟨pos, rfl, rfl⟩ := expecting
  dsimp only
  unfold recvRound
  simp only [Prog.bind_eq, Prog.pure_eq]
  refine wp_call_bind ⟨⟨trivial, h, pos, rfl⟩, trivial⟩ False.elim (fun _ w₁ _ => ?_)
  by_cases zero : size = 0
  · rw [if_pos zero, wp_ret]
    subst zero
    rw [Phase.rest_zero]
    exact fun _ => ⟨rfl, rfl⟩
  · rw [if_neg zero, Phase.rest_of_ne zero]
    refine wp_receive (p := .data h pos size) (k := .packet) carries
      (by rw [Side.other_other]; rfl) rfl behaves_recv False.elim ?_ ?_
    · intro data may
      rw [Phase.next_data]
      dsimp only
      obtain ⟨out, decrypted⟩ : ∃ out, decrypt lib data.data_payload K = some out :=
        decrypt_isSome _ K
      rw [decrypted]
      dsimp only
      refine wp_part (.perform trivial) (fun wrote t₂ => ?_)
      obtain ⟨written, fp⟩ := wrote
      dsimp only
      split
      · exact wp_ret.mpr (fun impossible => Bool.noConfusion impossible)
      · refine wp_part (.perform trivial) (fun fp t₃ => ?_)
        refine wp_part (writeCheckpoint_ordinary _ _ _) (fun out t₄ => ?_)
        obtain ⟨fckpt, ok⟩ := out
        cases ok with
        | true => exact wp_ret.mpr ⟨⟨_, rfl, rfl⟩, False.elim⟩
        | false => exact wp_ret.mpr (fun impossible => Bool.noConfusion impossible)
    · intro _
      exact wp_ret.mpr (fun impossible => Bool.noConfusion impossible)

theorem recvfile_conforms (carries : Carries proto put sender terms) (K : AESKeys) (mem : Memory)
    (zip ckpt path : CStr) (k : UInt64) :
    Wp (endpointSem proto sender.other lossy (tapeSem env (sysSem lib faulty)))
      (Behaves proto put sender.other) False (recvfile mem zip K k ckpt path)
      ⟨t, put (.header h k), false⟩ (Due put h) := by
  have ended : ∀ (fp fckpt : Option Stream) (status : Int) (t : SysTape lib) (p : P') (b : Bool),
      (status = -1 ∨ (p = put (.verdict h) ∧ b = false)) →
      Wp (endpointSem proto sender.other lossy (tapeSem env (sysSem lib faulty)))
        (Behaves proto put sender.other) False (transferCleanUp fp fckpt status).loc ⟨t, p, b⟩
        (Due put h) := by
    intro fp fckpt status t p b due
    apply wp_endpoint_loc
    refine wp_mono (transferCleanUp_returns (fun _ _ => behaves_loc) _ _ _) ?_
    rintro r t' (rfl | rfl)
    · exact due
    · exact Or.inl rfl
  unfold recvfile
  simp only [Prog.bind_eq]
  refine wp_part (openPartial_ordinary _ _) (fun out t₁ => ?_)
  obtain ⟨fp, moved⟩ := out
  cases moved with
  | false => exact ended _ _ _ _ _ _ (Or.inl rfl)
  | true =>
      cases fp with
      | none => exact ended _ _ _ _ _ _ (Or.inl rfl)
      | some fp =>
          refine wp_receive (p := .header h k) (k := .resource) carries
            (by rw [Side.other_other]; rfl) rfl behaves_recv False.elim ?_ ?_
          · intro resource may
            rw [Phase.next_header]
            dsimp only
            refine wp_part (.perform trivial) (fun ok t₂ => ?_)
            cases ok with
            | false => exact ended _ _ _ _ _ _ (Or.inl rfl)
            | true =>
                rw [if_pos rfl]
                apply wp_bind
                refine wp_mono (wp_iterate (Expecting put h) (fun st _ => st.2.1.toNat)
                  ⟨_, rfl, rfl⟩ (fun _ _ _ => ⟨⟨trivial, trivial⟩, trivial⟩)
                  (fun _ _ => recvRound_conforms carries K mem ckpt path)) ?_
                rintro ⟨fp, fckpt, ok⟩ ⟨t₃, p, b⟩ done
                cases ok with
                | true => exact ended _ _ _ _ _ _ (Or.inr (done rfl))
                | false => exact ended _ _ _ _ _ _ (Or.inl rfl)
          · intro _
            exact ended _ _ _ _ _ _ (Or.inl rfl)

/-- The handler gives up. -/
theorem abandonReceiving_conforms (fp : Option Stream) (p : P') (b : Bool) :
    Wp (endpointSem proto sender.other lossy (tapeSem env (sysSem lib faulty)))
      (Behaves proto put sender.other) False (receiverCleanUp fp (-1)).loc ⟨t, p, b⟩
      (Unpacked put) := by
  apply wp_endpoint_loc
  refine wp_mono (receiverCleanUp_returns (fun _ _ => behaves_loc) _ _) ?_
  intro r t' minus
  exact Or.inl minus

theorem finishReceiving_conforms (carries : Carries proto put sender terms) (fp : Option Stream)
    (status : Int) (home name dir path ckpt : CStr) :
    Wp (endpointSem proto sender.other lossy (tapeSem env (sysSem lib faulty)))
      (Behaves proto put sender.other) False
      (finishReceiving fp status h home name dir path ckpt) ⟨t, put (.verdict h), false⟩
      (Unpacked put) := by
  unfold finishReceiving
  simp only [Prog.bind_eq]
  refine wp_part (.perform trivial) (fun moved t₁ => ?_)
  cases moved with
  | false => exact abandonReceiving_conforms _ _ _
  | true =>
      rw [if_pos rfl]
      apply wp_loc_bind
      refine wp_mono (md5_computed (fun _ _ => behaves_loc) _) ?_
      intro computed t₂ known
      cases computed with
      | none => exact abandonReceiving_conforms _ _ _
      | some computed_hash =>
          dsimp only
          split
          · rename_i same
            refine wp_transmit carries rfl (Or.inl rfl) ?_ ?_ ?_
            · intro obeys
              refine ⟨conforms_send obeys, fun h' pos _ => ?_⟩
              cases carries.inj pos
              exact known _ (congrArg some same)
            · rw [if_pos rfl]
              refine wp_call_bind (behaves_loc (e := some _) trivial) False.elim (fun ok w' _ => ?_)
              cases ok with
              | true =>
                  refine wp_last (cleanFiles_ordinary _ _ _ _ _) (fun r t' kept => Or.inr (fun _ _ => ?_))
                  exact ⟨_, _, kept List.mem_cons_self⟩
              | false => exact abandonReceiving_conforms _ _ _
            · intro _
              exact abandonReceiving_conforms _ _ _
          · refine wp_transmit carries rfl (Or.inr rfl) (behaves_code (by decide)) ?_ ?_
            · refine wp_last (cleanFiles_ordinary _ _ _ _ _) (fun r t' _ => Or.inr (fun h' pos => ?_))
              exact absurd (Phase.done.inj (carries.inj pos)).2 (by decide)
            · intro _
              exact abandonReceiving_conforms _ _ _

variable (put sender) in
/-- Whatever happens on its machine, the receiving handler keeps to the protocol, as long as the
    offset of a checkpoint is one the terms allow. -/
theorem recvfileHandler_conforms (carries : Carries proto put sender terms)
    {quiet : List (SysEvent lib) → Prop} {inv : World → Prop} (steady : Steady env quiet inv)
    (calm : quiet t.log) (holds : inv t.world) (mem : Memory)
    (resource_name resource_dir resource_path ckpt_path : CStr) (K : AESKeys)
    (offers : ∀ h, terms.hash h → Offers inv terms h (checkpointPath mem ckpt_path h)) :
    Wp (endpointSem proto sender.other lossy (tapeSem env (sysSem lib faulty)))
      (Behaves proto put sender.other) False
      (recvfileHandler mem resource_name resource_dir resource_path ckpt_path K)
      ⟨t, put .hash, false⟩ (Unpacked put) := by
  unfold recvfileHandler
  simp only [Prog.bind_eq]
  refine wp_calm_call steady calm holds (e := .getcwd) trivial (behaves_loc (e := some _) trivial)
    (fun home t₁ calm holds _ => ?_)
  cases home with
  | none => exact abandonReceiving_conforms _ _ _
  | some current_dir =>
      refine wp_receive (p := .hash) (k := .hash) carries (by rw [Side.other_other]; rfl) rfl
        behaves_recv False.elim ?_ ?_
      · intro hash may
        have calm := steady.received calm .hash (some hash)
        apply wp_bind
        refine wp_mono (negotiate_conforms (t := t₁.record _ _) carries steady calm holds
          (offers hash may) resource_path) ?_
        rintro ⟨fp, status, offset⟩ ⟨t₂, p, b⟩ agreed
        cases offset with
        | none =>
            obtain rfl : status = -1 := agreed
            exact abandonReceiving_conforms _ _ _
        | some k =>
            obtain ⟨rfl, rfl⟩ := agreed
            apply wp_bind
            refine wp_mono (recvfile_conforms carries K mem _ _ _ k) ?_
            rintro r ⟨t₃, p, b⟩ due
            split
            · exact abandonReceiving_conforms _ _ _
            · rename_i ok
              obtain ⟨rfl, rfl⟩ := due.resolve_left ok
              exact finishReceiving_conforms carries _ _ _ _ _ _ _
      · intro _
        exact abandonReceiving_conforms _ _ _

end Handler

end Filerail
