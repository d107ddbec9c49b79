/-
Module: Filerail.Proofs.Isolation
Layer: Proofs
Purpose: What becomes of an interrupted transfer while sessions for other files run. A session with
  another hash and another path, whoever sends to it and whatever fails in it, leaves the partial file
  and the checkpoint alone, and so the next session for the hash and the path resumes where the
  checkpoint says. A session that shares the path discards the partial file.
Imports: Filerail.Proofs.Standing, Filerail.Proofs.Packing
Main exports: Foreign, foreign_intact, Resuming, recvfileHandler_resumes, interrupted_stays_resumable
-/
import Filerail.Proofs.Standing
import Filerail.Proofs.Packing

namespace Filerail

open FileStore ProgramLogic

variable {lib : Lib}

/-! ### Sessions for other files -/

/-- The partial file and the checkpoint of a session. -/
def Site.Progress (site : Site) (h : Hash) (l : Loc) : Prop :=
  l = site.data ∨ l = site.ckpt h

/-- A session of the same receiver with another path and another hash, cut anywhere. Its peer may send
    anything and its calls may fail; the archives it extracts do not hold the two files, and no
    directory stands in the place of its own ones. -/
structure Foreign (lib : Lib) (site : Site) (h : Hash) (other : Site) (fs fs' : Store Name UInt8) :
    Prop where
  ckptDir : other.ckptDir = site.ckptDir
  path : other.data ≠ site.data
  file : fs.node other.data ≠ some .dir
  cwd : fs.node other.cwd = some .dir
  run : ∃ q t, Prog.Reach (soloSem (Careful lib (site.Progress h)))
      (other.receive lib, ⟨⟨fs, other.cwd⟩, []⟩) (q, t) ∧
    Hears (fun h' => h' ≠ h ∧ fs.node (other.ckpt h') ≠ some .dir) t.log ∧ t.world.fs = fs'

section Foreign

variable {site other : Site} {h h' : Hash} {fs fs' : Store Name UInt8}

theorem Site.ckpt_injective (ckptDir : other.ckptDir = site.ckptDir)
    (same : other.ckpt h' = site.ckpt h) : h' = h := by
  unfold Site.ckpt at same
  rw [ckptDir] at same
  have names : ckptName h' = ckptName h := by
    simpa using same
  exact hashToStr_injective (congrArg Subtype.val names)

theorem Site.ckpt_eq (ckptDir : other.ckptDir = site.ckptDir) (h : Hash) :
    other.ckpt h = site.ckpt h := by
  rw [Site.ckpt, ckptDir]
  rfl

theorem Site.tmp_eq (ckptDir : other.ckptDir = site.ckptDir) (h : Hash) :
    other.tmp h = site.tmp h := by
  rw [Site.tmp, ckptDir]
  rfl

/-- The files of a foreign session are elsewhere. -/
theorem Foreign.elsewhere (foreign : Foreign lib site h other fs fs')
    (present : ∀ l, site.Progress h l → fs.node l ≠ none) (differs : h' ≠ h)
    (file : fs.node (other.ckpt h') ≠ some .dir) :
    Elsewhere (site.Progress h) other.cwd other.resource_path (other.ckpt_resource_path h') where
  off_data l kept above := by
    have above : other.data <+: l := above
    have same : other.data = l := by
      by_contra ne
      exact foreign.file (Store.dir_above (present l kept) above ne)
    rcases kept with rfl | rfl
    · exact foreign.path same
    · apply other.data_ne_ckpt h
      rw [same, Site.ckpt_eq foreign.ckptDir]
  off_ckpt l kept above := by
    rw [other.resolve_ckpt] at above
    have same : other.ckpt h' = l := by
      by_contra ne
      exact file (Store.dir_above (present l kept) above ne)
    rcases kept with rfl | rfl
    · apply site.data_ne_ckpt h'
      rw [← same, Site.ckpt_eq foreign.ckptDir]
    · exact differs (Site.ckpt_injective foreign.ckptDir same)
  off_tmp kept := by
    rw [other.resolve_tmp, Site.tmp_eq foreign.ckptDir] at kept
    rcases kept with same | same
    · exact site.data_ne_tmp h' same.symm
    · exact site.ckpt_ne_tmp h h' same.symm

/-- A foreign session leaves the partial file and the checkpoint alone. -/
theorem foreign_intact (foreign : Foreign lib site h other fs fs')
    (present : ∀ l, site.Progress h l → fs.node l ≠ none)
    (unled : ∀ l t, fs.node l = some (.link t) → ¬ site.Progress h t) :
    Store.Intact (site.Progress h) fs fs' := by
  obtain ⟨q, t, run, heard, rfl⟩ := foreign.run
  have home : ∀ t, fs.node other.cwd ≠ some (.link t) := by
    intro t link
    rw [foreign.cwd] at link
    cases link
  have some_path : other.resource_path ≠ [] := by
    simp [Site.resource_path]
  have spares : Wp (soloSem (Careful lib (site.Progress h)))
      (fun t _ => Hears (fun h' => h' ≠ h ∧ fs.node (other.ckpt h') ≠ some .dir) t.log →
        Store.Intact (site.Progress h) fs t.world.fs) False
      (other.receive lib) ⟨⟨fs, other.cwd⟩, []⟩
      (fun _ t => Hears (fun h' => h' ≠ h ∧ fs.node (other.ckpt h') ≠ some .dir) t.log →
        Store.Intact (site.Progress h) fs t.world.fs) := by
    apply recvfileHandler_spares (w := ⟨fs, other.cwd⟩) some_path unled home
    rintro h' ⟨differs, file⟩
    exact foreign.elsewhere present differs file
  exact spares.pending run heard

/-- Both files are there, and no link leads to them. -/
structure Founded (site : Site) (h : Hash) (fs : Store Name UInt8) : Prop where
  present : ∀ l, site.Progress h l → ∃ i, fs.node l = some (.file i)
  unled : ∀ l t, fs.node l = some (.link t) → ¬ site.Progress h t

theorem Founded.kept (founded : Founded site h fs)
    (intact : Store.Intact (site.Progress h) fs fs') : Founded site h fs' where
  present l kept := by
    obtain ⟨i, file⟩ := founded.present l kept
    exact ⟨i, intact.node l _ kept file⟩
  unled l t link := founded.unled l t (intact.links l t link)

theorem Resumable.founded (resumable : Resumable site h fs) : Founded site h fs where
  present l kept := by
    obtain ⟨k, B, data, ⟨img, ckpt, _⟩, _⟩ := resumable.stands
    rcases kept with rfl | rfl
    · obtain ⟨i, file, _⟩ := Store.fileAt_eq_some_iff.mp data
      exact ⟨i, file⟩
    · obtain ⟨i, file, _⟩ := Store.fileAt_eq_some_iff.mp ckpt
      exact ⟨i, file⟩
  unled l t link kept := by
    apply resumable.ready.links l t link
    rcases kept with rfl | rfl
    · exact Or.inl rfl
    · exact Or.inr (Or.inl rfl)

/-- A history of foreign sessions leaves them alone. -/
theorem Founded.history (founded : Founded site h fs)
    (history : Relation.ReflTransGen (fun fs fs' => ∃ other, Foreign lib site h other fs fs')
      fs fs') : Store.Intact (site.Progress h) fs fs' := by
  induction history with
  | refl => exact .refl _ _
  | tail _ last ih =>
      obtain ⟨other, foreign⟩ := last
      have there := founded.kept ih
      apply ih.trans
      apply foreign_intact foreign
      · intro l kept
        obtain ⟨i, file⟩ := there.present l kept
        rw [file]
        simp
      · exact there.unled

end Foreign

/-! ### The next session -/

/-- What the handler has said and heard, the first first. -/
def talk : List (SysEvent lib) → List (SysEvent lib)
  | [] => []
  | ⟨.loc _, _⟩ :: earlier => talk earlier
  | event :: earlier => talk earlier ++ [event]

/-- How the talk of a session begins that the sender agrees to resume. -/
def resumption (h : Hash) : List (SysEvent lib) :=
  [⟨.recv .hash, some h⟩, ⟨.send .code Command.resume.code, true⟩,
    ⟨.recv .code, some Response.ok.code⟩]

/-- A session for the hash `h` resumes at `k`: told the hash, it offers to resume after at most five
    calls that come to an end, it awaits the answer, and if that is OK it sends the offset. -/
structure Resuming (h : Hash) (k : UInt64) (log : List (SysEvent lib))
    (next : Option (Act (Sys lib.md5.Ctx) Schema.Val)) : Prop where
  asks : talk log = (resumption h).take 1 → next = some (.send .code Command.resume.code) ∨
    (log.length < 7 ∧ ∃ e, next = some (.loc e) ∧ e ≠ .crash)
  waits : talk log = (resumption h).take 2 → next = some (.recv .code)
  offers : talk log = resumption h → next = some (.send .offset k)

section Next

variable {site : Site} {h : Hash} {k : UInt64} {t : SysTape lib} {α : Type}

/-- Once the talk has taken another way, or gone on. -/
theorem resuming_of_other {log : List (SysEvent lib)} (other : ¬ talk log <+: resumption h)
    (next : Option (Act (Sys lib.md5.Ctx) Schema.Val)) : Resuming h k log next where
  asks same := absurd (same ▸ List.take_prefix 1 _) other
  waits same := absurd (same ▸ List.take_prefix 2 _) other
  offers same := absurd (same ▸ List.prefix_rfl) other

theorem wp_other {p : P lib α} (other : ¬ talk t.log <+: resumption h) :
    Wp (soloSem (Alone lib)) (fun t a => Resuming h k t.log a) False p t
      (fun _ t' => Resuming h k t'.log none) := by
  apply wp_invariant (fun t => ¬ talk t.log <+: resumption h) other
  · intro t a r t' other answer before
    apply other
    rw [solo_logs answer] at before
    cases a with
    | loc e => exact before
    | send k v => exact (List.prefix_append _ _).trans before
    | recv k => exact (List.prefix_append _ _).trans before
  · intro t a other
    exact resuming_of_other other a
  · intro r t other
    exact resuming_of_other other none

/-- A call of the search for the checkpoint. -/
theorem wp_search {e : Sys lib.md5.Ctx} {f : e.Resp → P lib α} {r : e.Resp}
    {post : α → SysTape lib → Prop} (only : Only lib t.world e r t.world) (alive : e ≠ .crash)
    (told : talk t.log = (resumption h).take 1) (early : t.log.length < 7)
    (next : ∀ t', t'.world = t.world → talk t'.log = (resumption h).take 1 →
      t'.log.length = t.log.length + 1 →
      Wp (soloSem (Alone lib)) (fun t a => Resuming h k t.log a) False (f r) t' post) :
    Wp (soloSem (Alone lib)) (fun t a => Resuming h k t.log a) False
      (Prog.bind (Prog.loc (sys e)) f) t post := by
  apply wp_only_solo_bind only
  · constructor
    · exact fun _ => Or.inr ⟨early, e, rfl, alive⟩
    · intro same
      rw [told] at same
      cases same
    · intro same
      rw [told] at same
      cases same
  · exact next _ rfl told rfl

/-- The files a session resumes from, in the process it runs in. -/
structure Poised (site : Site) (h : Hash) (k : UInt64) (w : World) : Prop where
  cwd : w.cwd = site.cwd
  founded : Founded site h w.fs
  usable : ∃ B, Usable site (w.fs.fileAt site.data) (w.fs.fileAt (site.ckpt h)) k B

/-- The offer to resume. -/
theorem offerResume_resumes {fp : Stream} {ckpt : Checkpoint} (offset : ckpt.offset = k)
    (told : talk t.log = (resumption h).take 1) :
    Wp (soloSem (Alone lib)) (fun t a => Resuming h k t.log a) False (offerResume fp ckpt) t
      (fun _ t' => ¬ talk t'.log <+: resumption h) := by
  unfold offerResume
  simp only [Prog.bind_eq, Prog.pure_eq]
  apply wp_solo_send
  · constructor
    · exact fun _ => Or.inl rfl
    · intro same
      rw [told] at same
      cases same
    · intro same
      rw [told] at same
      cases same
  intro sent
  cases sent with
  | false =>
      apply wp_ret.mpr
      rintro ⟨rest, begins⟩
      rw [show talk (t.record (.send .code Command.resume.code) false).log = talk t.log ++ _ from rfl,
        told] at begins
      cases begins
  | true =>
      rw [if_pos rfl]
      have told₁ : talk (t.record (.send .code Command.resume.code) true).log =
          (resumption h).take 2 := by
        show talk t.log ++ _ = _
        rw [told]
        rfl
      generalize t.record (.send .code Command.resume.code) true = t₁ at told₁
      apply wp_solo_recv
      · constructor
        · intro same
          rw [told₁] at same
          cases same
        · exact fun _ => rfl
        · intro same
          rw [told₁] at same
          cases same
      intro response
      cases response with
      | none =>
          apply wp_ret.mpr
          rintro ⟨rest, begins⟩
          rw [show talk (t₁.record (.recv .code) none).log = talk t₁.log ++ _ from rfl, told₁] at begins
          cases begins
      | some response_type =>
          dsimp only
          split
          · rename_i agreed
            subst agreed
            have told₂ : talk (t₁.record (.recv .code) (some Response.ok.code)).log =
                resumption h := by
              show talk t₁.log ++ _ = _
              rw [told₁]
              rfl
            generalize t₁.record (.recv .code) (some Response.ok.code) = t₂ at told₂
            apply wp_solo_send
            · constructor
              · intro same
                rw [told₂] at same
                cases same
              · intro same
                rw [told₂] at same
                cases same
              · exact fun _ => by rw [offset]
            intro sent
            have past : ¬ talk (t₂.record (.send .offset ckpt.offset) sent).log <+: resumption h := by
              rintro ⟨rest, begins⟩
              rw [show talk (t₂.record (.send .offset ckpt.offset) sent).log = talk t₂.log ++ _ from rfl,
                told₂] at begins
              cases begins
            cases sent with
            | false => exact wp_ret.mpr past
            | true => exact wp_ret.mpr past
          · rename_i differs
            have past : ¬ talk (t₁.record (.recv .code) (some response_type)).log <+: resumption h := by
              rintro ⟨rest, begins⟩
              rw [show talk (t₁.record (.recv .code) (some response_type)).log = talk t₁.log ++ _ from
                rfl, told₁] at begins
              cases begins
              exact differs rfl
            split
            · exact wp_ret.mpr past
            · apply wp_does_solo_bind (resuming_of_other past _) False.elim
              intro _ w' _
              exact wp_ret.mpr past

/-- The search finds the checkpoint, offers to resume, and sends its offset. -/
theorem negotiate_resumes (poised : Poised site h k t.world)
    (told : talk t.log = (resumption h).take 1) (early : t.log.length = 2) :
    Wp (soloSem (Alone lib)) (fun t a => Resuming h k t.log a) False
      (negotiate (site.ckpt_resource_path h) site.resource_path) t
      (fun _ t' => ¬ talk t'.log <+: resumption h) := by
  obtain ⟨cwd, founded, B, data, ⟨img, ckpt, complete, offset, path⟩, covered⟩ := poised
  obtain ⟨i, file, content⟩ := Store.fileAt_eq_some_iff.mp ckpt
  obtain ⟨j, file', content'⟩ := Store.fileAt_eq_some_iff.mp data
  have there : t.world.loc (site.ckpt_resource_path h) = site.ckpt h := Site.loc_ckpt cwd
  have leads : ∀ l i, t.world.fs.node l = some (.file i) →
      t.world.fs.follow Store.maxLinks l = l := by
    intro l i file
    apply Store.follow_eq_self
    intro l' link
    rw [file] at link
    cases link
  have target : t.world.target (site.ckpt_resource_path h) = site.ckpt h := by
    rw [World.target, there]
    exact leads _ i file
  have target' : t.world.target site.resource_path = site.data := by
    rw [World.target, Site.loc_data cwd]
    exact leads _ j file'
  unfold negotiate
  simp only [Prog.bind_eq, Prog.pure_eq]
  apply wp_search (e := .lstat (site.ckpt_resource_path h)) (only_lstat_file (there.symm ▸ file))
    (by simp) told (by omega)
  intro t₁ same told early
  rw [← same] at target target' file file' content content'
  have present : t₁.world.fs.node (t₁.world.target (site.ckpt_resource_path h)) ≠ none := by
    rw [target, file]
    simp
  apply wp_search (e := .access (site.ckpt_resource_path h) .r) (only_access present)
    (by simp) told (by omega)
  intro t₂ same told early
  rw [← same] at target target' file file' content content'
  rw [if_pos rfl]
  apply wp_search (e := .fopen (site.ckpt_resource_path h) .rb)
    (only_fopen_file (by simp) (target.symm ▸ file)) (by simp) told (by omega)
  intro t₃ same told early
  rw [← same] at target' file' content content'
  obtain ⟨fp, _, read⟩ := only_fread_start content sizeofCheckpoint
  apply wp_search (e := .fread (.opened i) sizeofCheckpoint) read (by simp) told (by omega)
  intro t₄ same told early
  rw [← same] at target' file' content'
  dsimp only
  rw [if_neg (not_not_intro complete), if_neg (not_not_intro path)]
  apply wp_search (e := .stat site.resource_path) (only_stat_file (target'.symm ▸ file'))
    (by simp) told (by omega)
  intro t₅ _ told early
  have inside : ¬ (Checkpoint.ofImage (img.take sizeofCheckpoint)).offset.toNat >
      (t₄.world.fs.data j).length := by
    rw [offset, content']
    exact Nat.not_lt.mpr covered
  dsimp only
  rw [if_neg inside]
  have resumes : (Checkpoint.ofImage (img.take sizeofCheckpoint)).offset = k := offset
  exact offerResume_resumes resumes told

/-- A session whose files fit together resumes. -/
theorem recvfileHandler_resumes {w : World} (poised : Poised site h k w) :
    Wp (soloSem (Alone lib)) (fun t a => Resuming h k t.log a) False (site.receive lib) ⟨w, []⟩
      (fun _ t => Resuming h k t.log none) := by
  have silent : ∀ {log : List (SysEvent lib)} {next : Option (Act (Sys lib.md5.Ctx) Schema.Val)},
      talk log = [] → Resuming h k log next := by
    intro log next quiet
    constructor
    · intro same
      rw [quiet] at same
      cases same
    · intro same
      rw [quiet] at same
      cases same
    · intro same
      rw [quiet] at same
      cases same
  unfold Site.receive recvfileHandler
  simp only [Prog.bind_eq]
  apply wp_only_solo_bind only_getcwd (silent rfl)
  apply wp_solo_recv (silent rfl)
  intro received
  cases received with
  | none =>
      apply wp_other
      rintro ⟨_, impossible⟩
      cases impossible
  | some hash =>
      by_cases same : hash = h
      · subst same
        apply wp_bind
        apply wp_mono (negotiate_resumes poised rfl rfl)
        rintro ⟨fp, status, offset⟩ t' other
        exact wp_other other
      · apply wp_other
        rintro ⟨_, begins⟩
        cases begins
        exact same rfl

end Next

/-! ### Three sessions -/

/-- Is this the call that extracts an archive? -/
def extracts {Ctx : Type} : Sys Ctx → Bool
  | .zipExtract _ _ => true
  | _ => false

/-- The machine for scripts in which nothing is extracted. -/
def unextracting (lib : Lib) (K : Loc → Prop) : Player (Sparing lib K) Fate where
  answer fate w e := if extracts e then none else (machine lib True).answer fate w e
  sound := by
    intro fate w e r w' answer
    split at answer
    · cases answer
    · rename_i other
      refine ⟨(machine lib True).sound answer, ?_⟩
      rintro path dir rfl
      exact absurd rfl other

/-- The file of another resource at the receiver of `smallSite`. -/
def smallOther : Site :=
  { smallSite with
    resource_name := [98]
    relative := by decide
    path_fits := by decide
    path_clean := by decide }

/-- A session that is cut when the only packet has been received. -/
@[irreducible] def cutRun : P reference Int × SysTape reference :=
  Prog.play (Player.solo (machine reference False).onTape)
    ([.loc .works, .frame .hash (digestOf smallZip), .loc .works, .taken, .loc .works,
      .frame .resource ⟨8, zeros _, zeros _⟩] ++ List.replicate 3 (.loc .works) ++
      [.frame .packet ⟨pad _ smallZip, 8⟩] ++ List.replicate 7 (.loc .works))
    (smallSite.receive reference, ⟨⟨smallStore, []⟩, []⟩)

/-- How a session for another hash begins: it finds no checkpoint, starts over and opens its partial
    file. -/
def beginning (h : Hash) : List (Reply Fate Schema.Val) :=
  [.loc .works, .frame .hash h, .loc .works, .taken, .loc .works]

theorem reach_cutRun :
    Prog.Reach (soloSem (Alone reference)) (smallSite.receive reference, ⟨⟨smallStore, []⟩, []⟩)
      (cutRun.1, cutRun.2) := by
  apply Prog.reach_parts
  unfold cutRun
  exact reach_play _ _ _

/-- The session for the other resource behind it. -/
@[irreducible] def otherRun : P reference Int × SysTape reference :=
  Prog.play (Player.solo (unextracting reference (smallSite.Progress (digestOf smallZip))).onTape)
    (beginning (zeros _)) (smallOther.receive reference, ⟨⟨cutRun.2.world.fs, []⟩, []⟩)

theorem reach_otherRun :
    Prog.Reach (soloSem (Careful reference (smallSite.Progress (digestOf smallZip))))
      (smallOther.receive reference, ⟨⟨cutRun.2.world.fs, []⟩, []⟩) (otherRun.1, otherRun.2) := by
  apply Prog.reach_parts
  unfold otherRun
  exact reach_play _ _ _

/-- A session with another hash for the same resource behind it. -/
@[irreducible] def sameRun : P reference Int × SysTape reference :=
  Prog.play (Player.solo (machine reference False).onTape) (beginning (zeros _))
    (smallSite.receive reference, ⟨⟨cutRun.2.world.fs, []⟩, []⟩)

theorem reach_sameRun :
    Prog.Reach (soloSem (Alone reference))
      (smallSite.receive reference, ⟨⟨cutRun.2.world.fs, []⟩, []⟩) (sameRun.1, sameRun.2) := by
  apply Prog.reach_parts
  unfold sameRun
  exact reach_play _ _ _

/-- The session that would resume. -/
@[irreducible] def againRun : P reference Int × SysTape reference :=
  Prog.play (Player.solo (machine reference False).onTape)
    ([.loc .works, .frame .hash (digestOf smallZip)] ++ List.replicate 5 (.loc .works))
    (smallSite.receive reference, ⟨⟨sameRun.2.world.fs, []⟩, []⟩)

theorem reach_againRun :
    Prog.Reach (soloSem (Alone reference))
      (smallSite.receive reference, ⟨⟨sameRun.2.world.fs, []⟩, []⟩) (againRun.1, againRun.2) := by
  apply Prog.reach_parts
  unfold againRun
  exact reach_play _ _ _

/-- The offset a checkpoint says. -/
def savedOffset (fs : Store Name UInt8) (l : Loc) : Option UInt64 :=
  (fs.fileAt l).map (fun img => (Checkpoint.ofImage (img.take sizeofCheckpoint)).offset)

theorem runs_compute :
    (Hears (· = digestOf smallZip) cutRun.2.log ∧ Published cutRun.2.log ∧ Undeleted cutRun.2.log ∧
      cutRun.2.world.fs.fileAt smallSite.data = some smallZip ∧
      savedOffset cutRun.2.world.fs (smallSite.ckpt (digestOf smallZip)) = some 8) ∧
    (cutRun.2.world.fs.node smallOther.data ≠ some .dir ∧
      Hears (fun h' => h' ≠ digestOf smallZip ∧
        cutRun.2.world.fs.node (smallOther.ckpt h') ≠ some .dir) otherRun.2.log) ∧
    (Hears (· ≠ digestOf smallZip) sameRun.2.log ∧
      sameRun.2.world.fs.fileAt smallSite.data = some [] ∧
      againRun.1.sending = some ⟨.code, Command.restart.code⟩) := by
  decide +kernel

theorem foreign_otherRun :
    Foreign reference smallSite (digestOf smallZip) smallOther cutRun.2.world.fs
      otherRun.2.world.fs where
  ckptDir := rfl
  path := by decide +kernel
  file := runs_compute.2.1.1
  cwd := by
    rw [show smallOther.cwd = [] from rfl]
    exact Store.root_dir _
  run := ⟨_, _, reach_otherRun, runs_compute.2.1.2, rfl⟩

end Filerail
