/-
Module: Filerail.Proofs.Landing
Layer: Proofs
Purpose: What a delivery leaves behind. Once the archive is extracted the receiver only removes its own
  files, so that what was unpacked is still there when it returns.
Imports: Filerail.Logic.Unpacking, Filerail.Proofs.Integrity, Filerail.Proofs.Verdict
Main exports: Dropped, cleanFiles_touches, Extracted, Landed, recvfileHandler_lands, Landed.files
-/
import Filerail.Logic.Unpacking
import Filerail.Proofs.Integrity
import Filerail.Proofs.Verdict

namespace Filerail

open FileStore ProgramLogic

variable {lib : Lib}

/-! ### Removing the files of a session -/

section Cleaning

variable {site : Site} {h : Hash} {w w' : World} {l : Loc} {t : SysTape lib}

/-- The file at a location is removed, or there was none. -/
def Dropped (l : Loc) (w w' : World) : Prop :=
  w' = w ∨ ∃ fs', w.fs.unlink l = some fs' ∧ w' = { w with fs := fs' }

theorem Touches.refl (site : Site) (h : Hash) (fs : Store Name UInt8) : Touches site h fs fs :=
  fun _ _ => ⟨rfl, rfl⟩

theorem Touches.trans {fs fs' fs'' : Store Name UInt8} (first : Touches site h fs fs')
    (second : Touches site h fs' fs'') : Touches site h fs fs'' := by
  intro l away
  obtain ⟨node, content⟩ := first l away
  obtain ⟨node', content'⟩ := second l away
  exact ⟨node'.trans node, content'.trans content⟩

theorem Dropped.ready (dropped : Dropped l w w') (own : site.Own h l) (ready : Ready site h w.fs) :
    Ready site h w'.fs ∧ w'.cwd = w.cwd := by
  rcases dropped with rfl | ⟨fs', gone, rfl⟩
  · exact ⟨ready, rfl⟩
  · have view : View site h (fun _ => False) w.fs w.fs _ _ := View.start ready
    exact ⟨(view.unlink own gone).ready, rfl⟩

theorem Dropped.touches (dropped : Dropped l w w') (own : site.Own h l) :
    Touches site h w.fs w'.fs := by
  rcases dropped with rfl | ⟨fs', gone, rfl⟩
  · exact Touches.refl site h w'.fs
  · intro l' away
    exact (Store.unlink_spec gone).2 l' (fun same => away (same ▸ own))

/-- `filerail_rm` on a path that leads to a file or to nothing. -/
theorem rm_drops {path : CStr} (named : t.world.loc path = l) (plain : t.world.fs.Plain l) :
    Wp (Alone lib) (fun _ _ => True) False (rm path) t (fun _ t' => Dropped l t.world t'.world) := by
  subst named
  rcases plain with absent | ⟨i, file⟩
  · refine wp_mono (rm_absent_wp absent trivial) ?_
    rintro r t' ⟨_, same, _⟩
    exact Or.inl same
  · obtain ⟨fs', gone⟩ := Store.unlink_isSome file (by simp)
    refine wp_mono (rm_file_wp file gone trivial (fun _ _ => trivial)) ?_
    rintro r t' ⟨_, same, _⟩
    exact Or.inr ⟨fs', gone, same⟩

theorem receiverCleanUp_still {fp : Option Stream} (closed : ∀ fp', fp = some fp' → fp'.pending = [])
    (status : Int) :
    Wp (Alone lib) (fun _ _ => True) False (receiverCleanUp fp status) t
      (fun _ t' => t'.world = t.world) := by
  unfold receiverCleanUp closeIf
  simp only [Prog.bind_eq, Prog.pure_eq]
  cases fp with
  | none => exact wp_ret.mpr rfl
  | some fp => exact wp_only_bind (only_fclose (closed fp rfl)) trivial (wp_ret.mpr rfl)

/-- `clean_files` touches nothing but the files of the session. -/
theorem cleanFiles_touches (ready : Ready site h t.world.fs) {fp : Option Stream}
    (closed : ∀ fp', fp = some fp' → fp'.pending = []) (status : Int) :
    Wp (Alone lib) (fun _ _ => True) False
      (cleanFiles fp status (render site.cwd) site.resource_path (site.ckpt_resource_path h)) t
      (fun _ t' => Touches site h t.world.fs t'.world.fs) := by
  have ends : ∀ {t' : SysTape lib} (status : Int), Touches site h t.world.fs t'.world.fs →
      Wp (Alone lib) (fun _ _ => True) False (receiverCleanUp fp status) t'
        (fun _ t'' => Touches site h t.world.fs t''.world.fs) := by
    intro t' status touches
    refine wp_mono (receiverCleanUp_still closed status) ?_
    rintro r t'' same
    rw [same]
    exact touches
  have home : t.world.target (render site.cwd) = site.cwd := by
    rw [World.target, World.loc, resolve_render]
    exact Store.follow_eq_self (fun l link => by
      rw [ready.cwd] at link
      cases link) _
  unfold cleanFiles
  simp only [Prog.bind_eq]
  refine wp_only_bind (only_chdir (home.symm ▸ ready.cwd)) trivial ?_
  rw [if_pos rfl]
  apply wp_bind
  refine wp_mono (rm_drops (Site.loc_data home) ready.data) ?_
  intro removed t₂ dropped
  have data : site.Own h site.data := Or.inl rfl
  have ckpt : site.Own h (site.ckpt h) := Or.inr (Or.inl rfl)
  obtain ⟨ready₂, cwd₂⟩ := dropped.ready data ready
  have touches₂ : Touches site h t.world.fs t₂.world.fs := dropped.touches data
  cases removed with
  | false => exact ends _ touches₂
  | true =>
      rw [if_pos rfl]
      apply wp_bind
      refine wp_mono (rm_drops (Site.loc_ckpt (cwd₂.trans home)) ready₂.ckpt) ?_
      intro removed t₃ dropped
      have touches₃ : Touches site h t.world.fs t₃.world.fs :=
        touches₂.trans (dropped.touches ckpt)
      cases removed with
      | false => exact ends _ touches₃
      | true => exact ends _ touches₃

end Cleaning

/-! ### Extraction -/

/-- An archive was extracted. -/
def Extracted (log : List (SysEvent lib)) : Prop :=
  ∃ path dir, (⟨.loc (.zipExtract path dir), true⟩ : SysEvent lib) ∈ log

theorem not_extracted_cons {log : List (SysEvent lib)} (never : ¬ Extracted log)
    {event : SysEvent lib} (other : ∀ path dir, event ≠ ⟨.loc (.zipExtract path dir), true⟩) :
    ¬ Extracted (event :: log) := by
  rintro ⟨path, dir, member⟩
  cases member with
  | head => exact other path dir rfl
  | tail _ earlier => exact never ⟨path, dir, earlier⟩

theorem not_extracted_sent {log : List (SysEvent lib)} (never : ¬ Extracted log) (code : UInt8)
    (sent : Bool) : ¬ Extracted (⟨.send .code code, sent⟩ :: log : List (SysEvent lib)) :=
  not_extracted_cons never (by rintro _ _ ⟨⟩)

theorem Beside.not_extract {a : Act (Sys lib.md5.Ctx) Schema.Val} (beside : Beside a)
    (r : a.Answer Sys.Resp) (path dir : CStr) :
    (⟨a, r⟩ : SysEvent lib) ≠ ⟨.loc (.zipExtract path dir), true⟩ := by
  rintro same
  cases same
  exact beside

namespace Delivery

variable {v : Delivery lib} {P' : Type} {proto : Protocol P' Schema.Val} {put : Phase → P'}
  {side sender : Side} {lossy : Prop} {t : SysTape lib} {p : P'} {b : Bool}

/-- What the site has received was extracted, and since then nothing but the files of the session was
    touched. -/
def Landed (v : Delivery lib) (t : SysTape lib) : Prop :=
  ∃ k B es, ∃ fs₁ fs₂ : Store Name UInt8, Start v.site v.data₀ v.ckpt₀ k B ∧
    lib.zip.entries (received B k.toNat v.F v.F.length) = some es ∧
    (∀ l m, fs₁.node l = some (.link m) ↔ v.found.node l = some (.link m)) ∧
    fs₁.extract (placements v.site.exdir es) = some fs₂ ∧ Touches v.site v.hash fs₂ t.world.fs

/-- A part of the handler that does not extract. -/
theorem wp_unextracted {α : Type} {program : P lib α} (calls : program.Calls Beside)
    {s : Endpoint (SysTape lib) P'} (never : ¬ Extracted s.tape.log) :
    Wp (endpointSem proto side lossy (Alone lib)) (fun _ _ => True) False program s
      (fun _ s' => ¬ Extracted s'.tape.log) := by
  refine wp_calls calls (fun s : Endpoint (SysTape lib) P' => ¬ Extracted s.tape.log) never ?_
    (fun _ _ _ _ => trivial) (fun _ _ => trivial)
  intro s a r s' beside never answer
  rw [solo_logs (solo_of_endpoint answer)]
  exact not_extracted_cons never (beside.not_extract r)

/-- The same at the end of the handler. -/
theorem unextracted_lands {program : L lib Int} (calls : program.Calls Ordinary)
    (never : ¬ Extracted t.log) :
    Wp (endpointSem proto side lossy (Alone lib)) (fun _ _ => True) False program.loc ⟨t, p, b⟩
      (fun _ s => Extracted s.tape.log → v.Landed s.tape) :=
  wp_mono (wp_unextracted (beside_loc calls) never) (fun _ _ never extracted => absurd extracted never)

theorem finishReceiving_lands {k : UInt64} {B : List UInt8} {c : Option (List UInt8)}
    (start : Start v.site v.data₀ v.ckpt₀ k B)
    (seen : v.Sees v.site.cwd (some (received B k.toNat v.F v.F.length)) c t)
    (saved : Saved v.site v.ckpt₀ k.toNat v.F.length c) (never : ¬ Extracted t.log) {fp : Option Stream}
    (closed : ∀ fp', fp = some fp' → fp'.pending = []) (status : Int) :
    Wp (endpointSem proto side lossy (Alone lib)) (fun _ _ => True) False
      (finishReceiving fp status v.hash (render v.site.cwd) v.site.resource_name v.site.resource_dir
        v.site.resource_path (v.site.ckpt_resource_path v.hash)) ⟨t, p, b⟩
      (fun _ s => Extracted s.tape.log → v.Landed s.tape) := by
  obtain ⟨X, whole⟩ : ∃ X, X = received B k.toNat v.F v.F.length := ⟨_, rfl⟩
  rw [← whole] at seen
  have files : Files v.site v.F v.data₀ v.ckpt₀ (some X) c :=
    whole ▸ .writing start (offset_inside start) (Nat.le_refl _) (Nat.le_refl _) saved
  have home : t.world.target v.site.resource_dir = v.site.dir := by
    rw [World.target, World.loc, seen.cwd]
    exact Store.follow_eq_self (fun l link => by
      rw [show resolve v.site.cwd v.site.resource_dir = v.site.dir from rfl,
        seen.view.ready.dir] at link
      cases link) _
  unfold finishReceiving
  simp only [Prog.bind_eq]
  refine wp_only_call_bind (only_chdir (home.symm ▸ seen.view.ready.dir)) trivial ?_
  rw [if_pos rfl]
  have seen₁ : v.Sees v.site.dir (some X) c (Tape.after t (.chdir v.site.resource_dir) true
      { t.world with cwd := t.world.target v.site.resource_dir }) :=
    ⟨seen.view, home⟩
  have never₁ : ¬ Extracted (⟨.loc (.chdir v.site.resource_dir), true⟩ :: t.log : List (SysEvent lib)) :=
    not_extracted_cons never (by rintro _ _ ⟨⟩)
  apply wp_bind
  have hashes : Wp (endpointSem proto side lossy (Alone lib)) (fun _ _ => True) False
      (md5 (v.site.resource_name ++ dotZip)).loc ⟨Tape.after t (.chdir v.site.resource_dir) true
        { t.world with cwd := t.world.target v.site.resource_dir }, p, b⟩
      (fun r s => r = some (lib.md5.digest X) ∧
        (v.Sees v.site.dir (some X) c s.tape ∧ s.pos = p ∧ s.broken = b)) := by
    apply wp_endpoint_loc
    refine wp_mono (md5_received_wp (fun _ _ _ _ _ _ _ _ => trivial) seen₁ files
      (fun _ _ _ => trivial)) ?_
    rintro r t' ⟨rfl, same⟩
    exact ⟨rfl, ⟨same ▸ seen₁.view, same ▸ seen₁.cwd⟩, rfl, rfl⟩
  refine wp_mono (wp_guard_mono (wp_and hashes (wp_unextracted (beside_md5 _) never₁))
    (fun _ _ _ => trivial)) ?_
  rintro _ ⟨t₂, p₂, b₂⟩ ⟨⟨rfl, seen₂, rfl, rfl⟩, never₂⟩
  dsimp only at never₂ ⊢
  split
  · rename_i verified
    refine wp_perform_bind.mpr ⟨trivial, False.elim, ?_⟩
    intro sent s answer
    obtain ⟨t₃, p₃, b₃⟩ := s
    obtain rfl : t₃ = t₂.record (.send .code Response.ok.code) sent := solo_of_endpoint answer
    have seen₃ := seen₂.record (.send .code Response.ok.code) sent
    have never₃ := not_extracted_sent never₂ Response.ok.code sent
    cases sent with
    | false => exact unextracted_lands (receiverCleanUp_ordinary _ _) never₃
    | true =>
        rw [if_pos rfl]
        refine wp_does_call_bind trivial False.elim (fun ok w' does => ?_)
        cases ok with
        | false =>
            rw [if_neg Bool.false_ne_true]
            exact unextracted_lands (receiverCleanUp_ordinary _ _)
              (not_extracted_cons never₃ (by rintro _ _ ⟨⟩))
        | true =>
            rw [if_pos rfl]
            obtain ⟨view₄, _⟩ := seen₃.view.extract v.avoids seen₃.cwd verified does
            have target := target_zip seen₃
            have into : (t₂.record (.send .code Response.ok.code) true).world.target
                v.site.resource_dir = v.site.exdir := by
              rw [World.target, World.loc, seen₃.cwd]
              exact Store.follow_eq_self seen₃.view.ready.exdir _
            rcases does with ⟨bytes, es, fs', content, read, all, _, rfl⟩ | ⟨_, _, _, _, _, _, no, _⟩ |
              ⟨_, no, _⟩
            · rw [target, seen₃.view.data] at content
              cases content
              rw [into] at all
              apply wp_endpoint_loc
              refine wp_mono (cleanFiles_touches view₄.ready closed status) ?_
              intro r t₅ touches _
              exact ⟨k, B, es, _, fs', start, whole ▸ read, seen₃.view.links, all, touches⟩
            · cases no
            · cases no
  · refine wp_perform_bind.mpr ⟨trivial, False.elim, ?_⟩
    intro sent s answer
    obtain ⟨t₃, p₃, b₃⟩ := s
    obtain rfl : t₃ = t₂.record (.send .code Response.noIntegrity.code) sent := solo_of_endpoint answer
    have never₃ := not_extracted_sent never₂ Response.noIntegrity.code sent
    cases sent with
    | false => exact unextracted_lands (receiverCleanUp_ordinary _ _) never₃
    | true => exact unextracted_lands (cleanFiles_ordinary _ _ _ _ _) never₃

theorem recvfileHandler_lands (carries : Carries proto put sender v.terms)
    (world : t.world = ⟨v.found, v.site.cwd⟩) (unhashed : Unhashed t.log) (never : ¬ Extracted t.log) :
    Wp (endpointSem proto sender.other lossy (Alone lib)) (fun _ _ => True) False
      (recvfileHandler v.site.mem v.site.resource_name v.site.resource_dir v.site.resource_path
        v.site.ckpt_path v.site.K) ⟨t, put .hash, false⟩
      (fun _ s => Extracted s.tape.log → v.Landed s.tape) := by
  have seen : v.At v.site.cwd v.data₀ v.ckpt₀ t := by
    refine ⟨⟨?_, ?_⟩, unhashed⟩
    · rw [world]
      exact View.start v.ready
    · rw [world]
  unfold recvfileHandler
  simp only [Prog.bind_eq]
  refine wp_only_call_bind only_getcwd trivial ?_
  rw [show t.world.cwd = v.site.cwd by rw [world]]
  have seen₁ := seen.after (e := .getcwd) trivial (some (render v.site.cwd))
  have never₁ : ¬ Extracted (⟨.loc .getcwd, some (render v.site.cwd)⟩ :: t.log) :=
    not_extracted_cons never (by rintro _ _ ⟨⟩)
  dsimp only
  apply wp_recv trivial False.elim
  · intro h _ may
    obtain rfl : h = v.hash := (carries.allowed .hash _).mp may
    have seen₂ := seen₁.record (a := .recv .hash) (by simp) (some v.hash)
    have never₂ : ¬ Extracted (⟨.recv .hash, some v.hash⟩ :: ⟨.loc .getcwd, _⟩ :: t.log) :=
      not_extracted_cons never₁ (by rintro _ _ ⟨⟩)
    rw [carries.next .hash ⟨.hash, v.hash⟩ rfl]
    apply wp_bind
    refine wp_mono (wp_guard_mono (wp_and (negotiate_wp carries seen₂)
      (wp_unextracted (beside_negotiate _ _) never₂)) (fun _ _ _ => trivial)) ?_
    rintro ⟨fp, status, offset⟩ ⟨t₃, p, b⟩ ⟨⟨seen₃, closed, agreed | ⟨rfl, _⟩⟩, never₃⟩
    · obtain ⟨k, B, rfl, start, rfl, rfl⟩ := agreed
      dsimp only
      apply wp_bind
      refine wp_mono (wp_guard_mono (wp_and (recvfile_wp carries start seen₃)
        (wp_unextracted (beside_recvfile _ _ _ _ _ _) never₃)) (fun _ _ _ => trivial)) ?_
      rintro status' ⟨t₄, p, b⟩ ⟨whole | ⟨rfl, _⟩, never₄⟩
      · obtain ⟨rfl, rfl, rfl, c, seen₄, saved⟩ := whole
        rw [if_neg (by decide)]
        exact finishReceiving_lands start seen₄.toSees saved never₄ closed status
      · rw [if_pos rfl]
        exact unextracted_lands (receiverCleanUp_ordinary _ _) never₄
    · exact unextracted_lands (receiverCleanUp_ordinary _ _) never₃
  · intro _
    exact unextracted_lands (receiverCleanUp_ordinary _ _)
      (not_extracted_cons never₁ (by rintro _ _ ⟨⟩))

/-- What an archive puts in free places is there in the end. -/
theorem Landed.files (landed : v.Landed t) {es : Entries}
    (whole : ∀ k B, Start v.site v.data₀ v.ckpt₀ k B → received B k.toNat v.F v.F.length = v.F)
    (archive : lib.zip.entries v.F = some es)
    (free : ∀ e ∈ es, v.found.node (walk v.site.exdir [] e.1) = none)
    (distinct : es.Pairwise (fun a b => walk v.site.exdir [] a.1 ≠ walk v.site.exdir [] b.1))
    {e : CStr × List UInt8} (member : e ∈ es) : t.world.fs.fileAt (walk v.site.exdir [] e.1) = some e.2 := by
  obtain ⟨k, B, es', fs₁, fs₂, start, read, links, extracted, touches⟩ := landed
  rw [whole k B start, archive] at read
  cases read
  have stays : ∀ e ∈ es, fs₁.follow Store.maxLinks (walk v.site.exdir [] e.1) = walk v.site.exdir [] e.1 := by
    intro e member
    refine Store.follow_eq_self (fun m link => ?_) _
    rw [links, free e member] at link
    cases link
  have apart : (placements v.site.exdir es).Pairwise
      (fun a b => fs₁.follow Store.maxLinks a.1 ≠ fs₁.follow Store.maxLinks b.1) := by
    refine List.pairwise_map.mpr (distinct.imp_of_mem ?_)
    intro a b here there other
    rw [stays a here, stays b there]
    exact other
  have placed := Store.extract_fileAt extracted apart (List.mem_map_of_mem member)
  rw [stays e member] at placed
  have away : ¬ v.site.Own v.hash (walk v.site.exdir [] e.1) := by
    intro own
    exact v.avoids v.F es rfl archive _ own e member List.prefix_rfl
  exact (touches _ away).2.trans placed

end Delivery

end Filerail
