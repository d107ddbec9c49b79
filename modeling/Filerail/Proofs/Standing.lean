/-
Module: Filerail.Proofs.Standing
Layer: Proofs
Purpose: A receiving session whose peer may send anything, on a machine that works. Once it has
  published a checkpoint, and until it removes its files, the partial file reaches as far as the
  checkpoint says: wherever the session is cut, another one can resume.
Imports: Filerail.Proofs.Verdict, Filerail.Proofs.Frame
Main exports: Site.receive, Published, Undeleted, Resumable, Lasting, recvfileHandler_lasts
-/
import Filerail.Proofs.Verdict
import Filerail.Proofs.Frame

namespace Filerail

open FileStore ProgramLogic

variable {lib : Lib}

/-- The receiving handler with the arguments of the site. -/
def Site.receive (lib : Lib) (site : Site) : P lib Int :=
  recvfileHandler site.mem site.resource_name site.resource_dir site.resource_path site.ckpt_path
    site.K

/-- A checkpoint has been published. -/
def Published (log : List (SysEvent lib)) : Prop :=
  ∃ a b, (⟨.loc (.rename a b), true⟩ : SysEvent lib) ∈ log

/-- No file has been removed. -/
def Undeleted (log : List (SysEvent lib)) : Prop :=
  ∀ path r, (⟨.loc (.unlink path), r⟩ : SysEvent lib) ∉ log

/-- A checkpoint is published here. -/
def publishes : SysEvent lib → Bool
  | ⟨.loc (.rename _ _), renamed⟩ => renamed
  | _ => false

/-- A file is removed here. -/
def removes : SysEvent lib → Bool
  | ⟨.loc (.unlink _), _⟩ => true
  | _ => false

instance (log : List (SysEvent lib)) : Decidable (Published log) :=
  decidable_of_iff (log.any publishes = true) (by
    rw [List.any_eq_true]
    constructor
    · rintro ⟨⟨a, r⟩, member, here⟩
      cases a with
      | loc e =>
          cases e with
          | rename p p' =>
              obtain rfl : r = true := here
              exact ⟨p, p', member⟩
          | _ => cases here
      | send k v => cases here
      | recv k => cases here
    · rintro ⟨p, p', member⟩
      exact ⟨_, member, rfl⟩)

instance (log : List (SysEvent lib)) : Decidable (Undeleted log) :=
  decidable_of_iff (log.any removes = false) (by
    rw [List.any_eq_false]
    constructor
    · intro none_removes path r member
      exact none_removes _ member rfl
    · rintro undeleted ⟨a, r⟩ member here
      cases a with
      | loc e =>
          cases e with
          | unlink path => exact undeleted path r member
          | _ => cases here
      | send k v => cases here
      | recv k => cases here)

/-- The checkpoint and the partial file fit together. -/
def Stands (site : Site) (d c : Option (List UInt8)) : Prop :=
  ∃ k B, Usable site d c k B

/-- A session can resume from the files. -/
structure Resumable (site : Site) (h : Hash) (fs : Store Name UInt8) : Prop where
  ready : Ready site h fs
  stands : Stands site (fs.fileAt site.data) (fs.fileAt (site.ckpt h))

/-- What a session has published lasts until it removes its files. -/
def Lasting {A : Type} (site : Site) (h : Hash) (t : SysTape lib) (_ : A) : Prop :=
  Published t.log → Undeleted t.log → Resumable site h t.world.fs

/-- The files of a session, of which `U` is known once it has published a checkpoint. -/
structure Standing (lib : Lib) (site : Site) (h : Hash) (fs₀ : Store Name UInt8) (U : Prop) (cwd : Loc)
    (d c : Option (List UInt8)) (t : SysTape lib) : Prop where
  view : View site h (site.Lands lib h fs₀) fs₀ t.world.fs d c
  cwd : t.world.cwd = cwd
  published : Published t.log → U
  enough : U → Stands site d c

section Rules

variable {site : Site} {h : Hash} {fs₀ : Store Name UInt8} {U : Prop} {cwd cwd' : Loc}
  {d c d' c' : Option (List UInt8)} {t : SysTape lib} {α : Type}

theorem Published.earlier {log : List (SysEvent lib)} {a : Act (Sys lib.md5.Ctx) Schema.Val}
    {r : a.Answer Sys.Resp} (published : Published (⟨a, r⟩ :: log))
    (other : ∀ p p', a ≠ .loc (.rename p p')) : Published log := by
  obtain ⟨p, p', member⟩ := published
  cases member with
  | head => exact absurd rfl (other p p')
  | tail _ member => exact ⟨p, p', member⟩

theorem Standing.lasting (standing : Standing lib site h fs₀ U cwd d c t) {A : Type} (a : A) :
    Lasting site h t a := by
  intro published _
  refine ⟨standing.view.ready, ?_⟩
  rw [standing.view.data, standing.view.ckpt]
  exact standing.enough (standing.published published)

theorem Standing.record (standing : Standing lib site h fs₀ U cwd d c t)
    {a : Act (Sys lib.md5.Ctx) Schema.Val} (other : ∀ p p', a ≠ .loc (.rename p p'))
    (r : a.Answer Sys.Resp) : Standing lib site h fs₀ U cwd d c (t.record a r) where
  view := standing.view
  cwd := standing.cwd
  published published := standing.published (published.earlier other)
  enough := standing.enough

/-- Any call but a rename, with what it leaves. -/
theorem Standing.moved (standing : Standing lib site h fs₀ U cwd d c t) {e : Sys lib.md5.Ctx}
    (other : ∀ p p', e ≠ .rename p p') (r : e.Resp) {w' : World}
    (view : View site h (site.Lands lib h fs₀) fs₀ w'.fs d' c') (there : w'.cwd = cwd')
    (enough : U → Stands site d' c') : Standing lib site h fs₀ U cwd' d' c' (Tape.after t e r w') where
  view := view
  cwd := there
  published published := standing.published
    (published.earlier (fun p p' same => other p p' (Act.loc.inj same)))
  enough := enough

/-- What stands is all that has to be known. -/
theorem Standing.stands (standing : Standing lib site h fs₀ U cwd d c t) :
    Standing lib site h fs₀ (Stands site d c) cwd d c t where
  view := standing.view
  cwd := standing.cwd
  published published := standing.enough (standing.published published)
  enough := id

variable {total : Prop}

/-- A call that changes the files of the session, or the directory. -/
theorem wp_turn {e : Sys lib.md5.Ctx} {f : e.Resp → L lib α} {r : e.Resp} {w' : World}
    {post : α → SysTape lib → Prop} (standing : Standing lib site h fs₀ U cwd d c t)
    (other : ∀ p p', e ≠ .rename p p')
    (only : Only lib t.world e r w') (view : View site h (site.Lands lib h fs₀) fs₀ w'.fs d' c')
    (there : w'.cwd = cwd') (enough : U → Stands site d' c')
    (next : ∀ t', t'.world = w' → Standing lib site h fs₀ U cwd' d' c' t' →
      Wp (Alone lib) (Lasting site h) total (f r) t' post) :
    Wp (Alone lib) (Lasting site h) total (Prog.bind (sys e) f) t post :=
  wp_only_bind only (standing.lasting _) (next _ rfl (standing.moved other r view there enough))

/-- A call that changes nothing. -/
theorem wp_keep {e : Sys lib.md5.Ctx} {f : e.Resp → L lib α} {r : e.Resp}
    {post : α → SysTape lib → Prop} (standing : Standing lib site h fs₀ U cwd d c t)
    (other : ∀ p p', e ≠ .rename p p')
    (only : Only lib t.world e r t.world)
    (next : ∀ t', t'.world = t.world → Standing lib site h fs₀ U cwd d c t' →
      Wp (Alone lib) (Lasting site h) total (f r) t' post) :
    Wp (Alone lib) (Lasting site h) total (Prog.bind (sys e) f) t post :=
  wp_turn standing other only standing.view standing.cwd standing.enough next

/-- The same two in a communicating function. -/
theorem wp_turn_solo {e : Sys lib.md5.Ctx} {f : e.Resp → P lib α} {r : e.Resp} {w' : World}
    {post : α → SysTape lib → Prop} (standing : Standing lib site h fs₀ U cwd d c t)
    (other : ∀ p p', e ≠ .rename p p')
    (only : Only lib t.world e r w') (view : View site h (site.Lands lib h fs₀) fs₀ w'.fs d' c')
    (there : w'.cwd = cwd') (enough : U → Stands site d' c')
    (next : ∀ t', t'.world = w' → Standing lib site h fs₀ U cwd' d' c' t' →
      Wp (soloSem (Alone lib)) (Lasting site h) total (f r) t' post) :
    Wp (soloSem (Alone lib)) (Lasting site h) total (Prog.bind (Prog.loc (sys e)) f) t post :=
  wp_only_solo_bind only (standing.lasting _) (next _ rfl (standing.moved other r view there enough))

theorem wp_keep_solo {e : Sys lib.md5.Ctx} {f : e.Resp → P lib α} {r : e.Resp}
    {post : α → SysTape lib → Prop} (standing : Standing lib site h fs₀ U cwd d c t)
    (other : ∀ p p', e ≠ .rename p p')
    (only : Only lib t.world e r t.world)
    (next : ∀ t', t'.world = t.world → Standing lib site h fs₀ U cwd d c t' →
      Wp (soloSem (Alone lib)) (Lasting site h) total (f r) t' post) :
    Wp (soloSem (Alone lib)) (Lasting site h) total (Prog.bind (Prog.loc (sys e)) f) t post :=
  wp_turn_solo standing other only standing.view standing.cwd standing.enough next

/-! Where the paths of the session lead. -/

namespace Standing

variable (standing : Standing lib site h fs₀ U site.cwd d c t)

include standing

theorem target_data : t.world.target site.resource_path = site.data :=
  standing.view.ready.target_data standing.cwd

theorem loc_data : t.world.loc site.resource_path = site.data :=
  Site.loc_data standing.cwd

theorem target_ckpt : t.world.target (site.ckpt_resource_path h) = site.ckpt h :=
  standing.view.ready.target_ckpt standing.cwd

theorem loc_ckpt : t.world.loc (site.ckpt_resource_path h) = site.ckpt h :=
  Site.loc_ckpt standing.cwd

end Standing

/-- A file the view knows the contents of. -/
theorem View.data_file {lands : Loc → Prop} {fs : Store Name UInt8} {B : List UInt8}
    (view : View site h lands fs₀ fs (some B) c) :
    ∃ i, fs.node site.data = some (.file i) ∧ fs.data i = B :=
  Store.fileAt_eq_some_iff.mp view.data

theorem View.ckpt_file {lands : Loc → Prop} {fs : Store Name UInt8} {img : List UInt8}
    (view : View site h lands fs₀ fs d (some img)) :
    ∃ i, fs.node (site.ckpt h) = some (.file i) ∧ fs.data i = img :=
  Store.fileAt_eq_some_iff.mp view.ckpt

theorem View.data_absent {lands : Loc → Prop} {fs : Store Name UInt8}
    (view : View site h lands fs₀ fs none c) : fs.node site.data = none := by
  rcases view.ready.data.cases_fileAt with ⟨absent, _⟩ | ⟨i, _, content⟩
  · exact absent
  · rw [view.data] at content
    cases content

theorem View.ckpt_absent {lands : Loc → Prop} {fs : Store Name UInt8}
    (view : View site h lands fs₀ fs d none) : fs.node (site.ckpt h) = none := by
  rcases view.ready.ckpt.cases_fileAt with ⟨absent, _⟩ | ⟨i, _, content⟩
  · exact absent
  · rw [view.ckpt] at content
    cases content

end Rules

section Handler

variable {site : Site} {h : Hash} {fs₀ : Store Name UInt8} {U : Prop} {cwd : Loc}
  {d c : Option (List UInt8)} {t : SysTape lib} {β : Type}

/-! ### The search for a checkpoint -/

/-- What the search leaves: the files as they were, and an offset they allow. -/
def Located (site : Site) (h : Hash) (fs₀ : Store Name UInt8) (U : Prop)
    (d c : Option (List UInt8)) (out : Option Stream × Int × Option UInt64) (t : SysTape lib) : Prop :=
  Standing lib site h fs₀ U site.cwd d c t ∧ (∀ fp, out.1 = some fp → fp.pending = []) ∧
    ∀ k, out.2.2 = some k → ∃ B, Start site d c k B

theorem restart_stands (standing : Standing lib site h fs₀ U site.cwd d c t) {fp : Option Stream}
    (closed : ∀ fp', fp = some fp' → fp'.pending = []) (status : Int) :
    Wp (soloSem (Alone lib)) (Lasting site h) False (restart fp status) t
      (Located site h fs₀ U d c) := by
  apply wp_solo_send (standing.lasting _)
  intro sent
  have standing := standing.record (a := .send .code Command.restart.code) (by simp) sent
  cases sent with
  | false => exact wp_ret.mpr ⟨standing, closed, fun _ impossible => nomatch impossible⟩
  | true =>
      apply wp_ret.mpr
      refine ⟨standing, closed, ?_⟩
      rintro _ ⟨⟩
      exact ⟨[], .anew⟩

theorem offerResume_stands (standing : Standing lib site h fs₀ U site.cwd d c t) {fp : Stream}
    (closed : fp.pending = []) {ckpt : Checkpoint} {B : List UInt8}
    (usable : Usable site d c ckpt.offset B) :
    Wp (soloSem (Alone lib)) (Lasting site h) False (offerResume fp ckpt) t
      (Located site h fs₀ U d c) := by
  have closed' : ∀ fp', some fp = some fp' → fp'.pending = [] := by
    rintro fp' ⟨⟩
    exact closed
  have nowhere : ∀ k : UInt64, (none : Option UInt64) = some k → ∃ B, Start site d c k B :=
    fun _ impossible => nomatch impossible
  unfold offerResume
  simp only [Prog.bind_eq, Prog.pure_eq]
  apply wp_solo_send (standing.lasting _)
  intro sent
  have standing := standing.record (a := .send .code Command.resume.code) (by simp) sent
  cases sent with
  | false => exact wp_ret.mpr ⟨standing, closed', nowhere⟩
  | true =>
      rw [if_pos rfl]
      apply wp_solo_recv (standing.lasting _)
      intro response
      have standing := standing.record (a := .recv .code) (by simp) response
      cases response with
      | none => exact wp_ret.mpr ⟨standing, closed', nowhere⟩
      | some response_type =>
          dsimp only
          split
          · apply wp_solo_send (standing.lasting _)
            intro sent
            have standing := standing.record (a := .send .offset ckpt.offset) (by simp) sent
            cases sent with
            | false => exact wp_ret.mpr ⟨standing, closed', nowhere⟩
            | true =>
                apply wp_ret.mpr
                refine ⟨standing, closed', ?_⟩
                rintro _ ⟨⟩
                by_cases zero : ckpt.offset = 0
                · exact ⟨[], zero.symm ▸ .anew⟩
                · exact ⟨B, .resume usable zero⟩
          · split
            · apply wp_ret.mpr
              refine ⟨standing, closed', ?_⟩
              rintro _ ⟨⟩
              exact ⟨[], .anew⟩
            · apply wp_does_solo_bind (standing.lasting _) False.elim
              rintro r w' rfl
              have standing := standing.record (a := .loc .protocolNotFollowed) (by simp) r
              exact wp_ret.mpr ⟨standing, closed', nowhere⟩

theorem negotiate_stands (standing : Standing lib site h fs₀ U site.cwd d c t) :
    Wp (soloSem (Alone lib)) (Lasting site h) False
      (negotiate (site.ckpt_resource_path h) site.resource_path) t (Located site h fs₀ U d c) := by
  unfold negotiate
  simp only [Prog.bind_eq, Prog.pure_eq]
  cases c with
  | none =>
      have absent := standing.view.ckpt_absent
      rw [← standing.loc_ckpt] at absent
      apply wp_keep_solo standing (by simp) (only_lstat_absent absent)
      intro t' _ standing
      exact restart_stands standing (by simp) 0
  | some img =>
      obtain ⟨i, file, content⟩ := standing.view.ckpt_file
      have leads := file
      rw [← standing.loc_ckpt] at file
      rw [← standing.target_ckpt] at leads
      apply wp_keep_solo standing (by simp) (only_lstat_file file)
      intro t₁ same standing
      rw [← same] at leads content
      apply wp_keep_solo standing (e := .access (site.ckpt_resource_path h) .r) (by simp)
        (only_access (by rw [leads]; simp))
      intro t₂ same standing
      rw [← same] at leads content
      rw [if_pos rfl]
      apply wp_keep_solo standing (e := .fopen (site.ckpt_resource_path h) .rb) (by simp)
        (only_fopen_file (by simp) leads)
      intro t₃ same standing
      rw [← same] at content
      obtain ⟨fp, closed, read⟩ := only_fread_start content sizeofCheckpoint
      apply wp_keep_solo standing (by simp) read
      intro t₄ _ standing
      have closed' : ∀ fp', some fp = some fp' → fp'.pending = [] := by
        rintro fp' ⟨⟩
        exact closed
      dsimp only
      split
      · exact restart_stands standing closed' _
      · rename_i complete
        split
        · exact restart_stands standing closed' _
        · rename_i path
          cases d with
          | none =>
              have absent := standing.view.data_absent
              rw [← standing.target_data] at absent
              apply wp_keep_solo standing (by simp) (only_stat_absent absent)
              intro t₅ _ standing
              exact restart_stands standing closed' _
          | some B =>
              obtain ⟨j, file, content⟩ := standing.view.data_file
              rw [← standing.target_data] at file
              apply wp_keep_solo standing (by simp) (only_stat_file file)
              intro t₅ _ standing
              dsimp only
              split
              · exact restart_stands standing closed' _
              · rename_i covered
                rw [content] at covered
                apply offerResume_stands standing closed
                exact ⟨rfl, ⟨img, rfl, Decidable.not_not.mp complete, rfl,
                  Decidable.not_not.mp path⟩, Nat.not_lt.mp covered⟩

/-! ### Opening the partial file -/

/-- The partial file is open, at the offset. -/
structure Ajar (site : Site) (h : Hash) (fs₀ : Store Name UInt8) (k : Nat) (c : Option (List UInt8))
    (fp : Stream) (t : SysTape lib) : Prop where
  standing : ∃ B, Standing lib site h fs₀ False site.cwd (some B) c t ∧ k ≤ B.length
  file : t.world.fs.node site.data = some (.file fp.ino)
  pos : fp.pos = k
  pending : fp.pending = []

theorem openPartial_stands {k : UInt64} {B : List UInt8} (start : Start site d c k B)
    (short : k.toNat ≤ 2 ^ 31) (standing : Standing lib site h fs₀ False site.cwd d c t) :
    Wp (Alone lib) (Lasting site h) False (openPartial site.resource_path k) t
      (fun out t' => ∃ fp, out = (some fp, true) ∧ Ajar site h fs₀ k.toNat c fp t') := by
  unfold openPartial
  simp only [Prog.bind_eq, Prog.pure_eq]
  cases start with
  | anew =>
      rw [if_pos rfl]
      rcases standing.view.ready.data with absent | ⟨i, file⟩
      · obtain ⟨parent, name, path, dir⟩ := standing.view.ready.parent
        obtain ⟨fs', made⟩ := Store.create_isSome dir (path ▸ absent)
        rw [← path] at made
        obtain ⟨file, view⟩ := standing.view.createData made
        rw [← standing.target_data] at made
        apply wp_turn standing (by simp) (only_fopen_create made) view standing.cwd False.elim
        intro t' same standing
        rw [wp_ret]
        exact ⟨_, rfl, ⟨[], standing, Nat.le_refl _⟩, same ▸ file, rfl, rfl⟩
      · have opens := file
        rw [← standing.target_data] at opens
        apply wp_turn standing (by simp) (only_fopen_truncate opens)
          (standing.view.writeData file []) standing.cwd False.elim
        intro t' same standing
        rw [wp_ret]
        exact ⟨_, rfl, ⟨[], standing, Nat.le_refl _⟩, same ▸ file, rfl, rfl⟩
  | resume usable some_offset =>
      obtain rfl := usable.data
      obtain ⟨i, file, content⟩ := standing.view.data_file
      have opens := file
      rw [← standing.target_data] at opens
      rw [if_neg some_offset]
      apply wp_keep standing (e := .fopen site.resource_path .rPlusB) (by simp)
        (only_fopen_file (by simp) opens)
      intro t₁ same standing
      apply wp_iterate (fun st t => ∃ n ≤ k.toNat, st.1 = .ofNat 32 n ∧ ∃ fp, st.2 = some fp ∧
        Standing lib site h fs₀ False site.cwd (some B) c t ∧
        t.world.fs.node site.data = some (.file fp.ino) ∧ fp.pos = n ∧ fp.pending = [])
        (fun _ _ => 0)
      · exact ⟨0, Nat.zero_le _, rfl, _, rfl, standing, same ▸ file, rfl, rfl⟩
      · rintro st t ⟨_, _, _, _, _, standing, _⟩
        exact standing.lasting _
      · rintro ⟨_, _⟩ t ⟨n, passed, rfl, fp, rfl, standing, file, rfl, pending⟩
        unfold seekRound
        simp only [Prog.bind_eq, Prog.pure_eq, Delivery.seek_counter passed short]
        by_cases more : fp.pos < k.toNat
        · obtain ⟨j, here, content⟩ := standing.view.data_file
          rw [file] at here
          cases here
          have byte : (t.world.fs.data fp.ino)[fp.pos]? =
              some (B.get ⟨fp.pos, more.trans_le usable.covered⟩) := by
            rw [content]
            exact List.getElem?_eq_getElem _
          rw [if_pos more]
          apply wp_keep standing (by simp) (only_fgetc byte)
          intro t' same standing
          rw [wp_ret]
          refine ⟨⟨fp.pos + 1, more, ?_, _, rfl, standing, same ▸ file, rfl, pending⟩, False.elim⟩
          rw [BitVec.ofNat_add]
          rfl
        · rw [if_neg more, wp_ret]
          exact ⟨fp, rfl, ⟨B, standing, usable.covered⟩, file, by omega, pending⟩

/-! ### The packet loop -/

/-- Publishing a checkpoint that fits the partial file. -/
theorem writeCheckpoint_stands {image : List UInt8}
    (standing : Standing lib site h fs₀ U site.cwd d c t) (size : image.length = sizeofCheckpoint)
    (stands : Stands site d (some image)) :
    Wp (Alone lib) (Lasting site h) False (writeCheckpoint image
        (site.ckpt_resource_path h ++ dotTmp) (site.ckpt_resource_path h)) t
      (fun out t' => out = (none, true) ∧
        Standing lib site h fs₀ (Stands site d (some image)) site.cwd d (some image) t' ∧
        t'.world.fs.node site.data = t.world.fs.node site.data) := by
  unfold writeCheckpoint
  simp only [Prog.bind_eq, Prog.pure_eq]
  obtain ⟨j, fs₁, opens, view₁, tmp₁, empty, node₁⟩ := standing.view.openTmp standing.cwd
  apply wp_turn standing (by simp) opens view₁ standing.cwd standing.enough
  rintro t₁ same₁ standing₁
  have tmp : t₁.world.fs.node (site.tmp h) = some (.file j) := by
    rw [same₁]
    exact tmp₁
  apply wp_does_bind (standing₁.lasting _) False.elim
  intro r w' does
  obtain ⟨n, rfl, rfl⟩ := fwrite_inside (Nat.le_of_eq size.symm) does
  have whole : image.take sizeofCheckpoint = image := by
    rw [← size, List.take_length]
  simp only [whole]
  rw [if_neg (fun differs => differs rfl)]
  have standing₂ : Standing lib site h fs₀ U site.cwd d c
      (Tape.after t₁ (.fwrite (.opened j) image sizeofCheckpoint)
        (sizeofCheckpoint, (Stream.opened j).flushed image n)
        (t₁.world.flushed (.opened j) image n)) :=
    standing₁.moved (by simp) _
      (standing₁.view.writeTmp tmp (splice (t₁.world.fs.data j) 0 (image.take n))) standing₁.cwd
      standing₁.enough
  -- the record is in the temporary file once it has been flushed
  have flush : Only lib (t₁.world.flushed (.opened j) image n)
      (.fflush ((Stream.opened j).flushed image n))
      { Stream.opened j with pos := (Stream.opened j).pos + image.length, pending := [] }
      { t₁.world with fs := t₁.world.fs.setData j image } := by
    have blank : t₁.world.fs.data j = [] := by
      rw [same₁]
      exact empty
    have stored : splice (t₁.world.fs.data j) 0 image = image := by
      rw [blank, splice_of_le (Nat.zero_le _), List.take_nil, List.drop_nil, List.nil_append,
        List.append_nil]
    have flush : Only lib (t₁.world.flushed (.opened j) image n) _ _
        { t₁.world with fs := t₁.world.fs.setData j (splice (t₁.world.fs.data j) 0 image) } :=
      only_fflush_written n (Nat.zero_le _)
    rwa [stored] at flush
  apply wp_turn standing₂ (by simp) flush (standing₁.view.writeTmp tmp image) standing₁.cwd
    standing₁.enough
  intro t₃ same₃ standing₃
  apply wp_keep standing₃ (by simp) (only_fclose rfl)
  intro t₄ same₄ standing₄
  have file : t₄.world.fs.node (site.tmp h) = some (.file j) := by
    rw [same₄, same₃]
    exact tmp
  have content : t₄.world.fs.data j = image := by
    rw [same₄, same₃]
    exact Store.setData_data_self _ _ _
  obtain ⟨fs', renames, view₅, node⟩ := standing₄.view.publish standing₄.cwd file
  rw [content] at view₅
  apply wp_only_bind renames (standing₄.lasting _)
  rw [wp_ret]
  refine ⟨rfl, ⟨view₅, standing₄.cwd, fun _ => stands, id⟩, ?_⟩
  calc fs'.node site.data = t₄.world.fs.node site.data := node
    _ = t₁.world.fs.node site.data := by
        rw [same₄, same₃]
        rfl
    _ = t.world.fs.node site.data := by
        rw [same₁]
        exact node₁

/-- The head of the packet loop: the stream and the offset are at the same place of the partial
    file. -/
structure Level (site : Site) (h : Hash) (fs₀ : Store Name UInt8) (st : Stream × UInt64 × UInt64)
    (t : SysTape lib) : Prop where
  standing : ∃ B c, Standing lib site h fs₀ (Stands site (some B) c) site.cwd (some B) c t ∧
    st.1.pos ≤ B.length
  file : t.world.fs.node site.data = some (.file st.1.ino)
  pending : st.1.pending = []
  offset : st.2.2 = .ofNat st.1.pos

/-- What the loop leaves. -/
def Levelled (site : Site) (h : Hash) (fs₀ : Store Name UInt8) (out : Stream × Option Stream × Bool)
    (t : SysTape lib) : Prop :=
  (∃ B c, Standing lib site h fs₀ (Stands site (some B) c) site.cwd (some B) c t) ∧
    out.1.pending = [] ∧ out.2.1 = none

/-- A partial file that has grown still fits its checkpoint. -/
theorem Stands.grown {B B' : List UInt8} (stands : Stands site (some B) c)
    (longer : B.length ≤ B'.length) : Stands site (some B') c := by
  obtain ⟨k, _, data, complete, covered⟩ := stands
  cases data
  exact ⟨k, B', rfl, complete, covered.trans longer⟩

/-- The record of a place inside the partial file. -/
theorem stands_record (site : Site) {B : List UInt8} {m : Nat} (inside : m ≤ B.length) :
    Stands site (some B) (some (Checkpoint.image
      { offset := .ofNat m, resource_path := strcpy site.mem.path site.resource_path }
      site.mem.padding)) := by
  have whole := List.take_of_length_le (Checkpoint.length_image
    { offset := .ofNat m, resource_path := strcpy site.mem.path site.resource_path }
    site.mem.padding).le
  refine ⟨.ofNat m, B, rfl, ⟨_, rfl, ?_, ?_, ?_⟩, ?_⟩
  · rw [whole]
    exact Checkpoint.length_image _ _
  · rw [whole, Checkpoint.ofImage_image]
  · rw [whole, Checkpoint.ofImage_image]
    exact cstr_strcpy site.path_clean site.path_fits _
  · rw [UInt64.toNat_ofNat']
    exact (Nat.mod_le _ _).trans inside

theorem recvRound_stands {st : Stream × UInt64 × UInt64} (level : Level site h fs₀ st t) :
    Wp (soloSem (Alone lib)) (Lasting site h) False
      (recvRound site.K site.mem (site.ckpt_resource_path h) site.resource_path st) t
      (LoopPost False (Level site h fs₀) (fun _ _ => 0) 0 (Levelled site h fs₀)) := by
  obtain ⟨fp, size, offset⟩ := st
  obtain ⟨⟨B, c, standing, inside⟩, file, pending, place⟩ := level
  dsimp only at *
  subst place
  unfold recvRound
  simp only [Prog.bind_eq, Prog.pure_eq]
  apply wp_keep_solo standing (by simp) (only_remaining _)
  intro t₁ same standing
  rw [← same] at file
  split
  · rw [wp_ret]
    exact ⟨⟨B, c, standing⟩, pending, rfl⟩
  · apply wp_solo_recv (standing.lasting _)
    intro data
    have standing := standing.record (a := .recv .packet) (by simp) data
    cases data with
    | none =>
        rw [wp_ret]
        exact ⟨⟨B, c, standing⟩, pending, rfl⟩
    | some data =>
        dsimp only
        split
        · rw [wp_ret]
          exact ⟨⟨B, c, standing⟩, pending, rfl⟩
        · rename_i out _
          apply wp_does_solo_bind (standing.lasting _) False.elim
          rintro r w₂ ⟨bytes, j, count, _, rfl, rfl⟩
          rw [pending, List.nil_append]
          dsimp only
          rw [if_neg (fun failed => failed.1 rfl)]
          have content : t₁.world.fs.data fp.ino = B := by
            obtain ⟨i, here, content⟩ := standing.view.data_file
            rw [show (t₁.record (.recv .packet) (some data)).world.fs.node site.data = _ from file] at here
            cases here
            exact content
          have longer : ∀ bs, B.length ≤ (splice B fp.pos bs).length := by
            intro bs
            rw [length_splice inside]
            exact Nat.le_max_left _ _
          have view₂ := standing.view.writeData file (splice B fp.pos (bytes.take j))
          rw [← content] at view₂
          have standing₂ : Standing lib site h fs₀ (Stands site (some B) c) site.cwd
              (some (splice (t₁.world.fs.data fp.ino) fp.pos (bytes.take j))) c
              (Tape.after (t₁.record (.recv .packet) (some data))
                (.fwrite fp out.toList data.data_size.toNat)
                (data.data_size.toNat, fp.flushed bytes j) (t₁.world.flushed fp bytes j)) := by
            refine standing.moved (by simp) _ view₂ standing.cwd (fun stands => ?_)
            rw [content]
            exact stands.grown (longer _)
          have flush : Only lib (t₁.world.flushed fp bytes j) (.fflush (fp.flushed bytes j)) _ _ :=
            only_fflush_written j (by rw [content]; exact inside)
          rw [content, count] at flush
          apply wp_turn_solo standing₂ (by simp) flush
            (standing.view.writeData file (splice B fp.pos bytes)) standing.cwd
            (fun stands => stands.grown (longer bytes))
          intro t₃ same₃ standing₃
          have next : UInt64.ofNat fp.pos + data.data_size = .ofNat (fp.pos + data.data_size.toNat) := by
            rw [UInt64.ofNat_add, UInt64.ofNat_toNat]
          have reached : fp.pos + data.data_size.toNat ≤ (splice B fp.pos bytes).length := by
            rw [length_splice inside, count]
            exact Nat.le_max_right _ _
          rw [next]
          apply wp_bind
          apply wp_solo_loc
          apply wp_mono (writeCheckpoint_stands standing₃ (Checkpoint.length_image _ _)
            (stands_record site reached))
          rintro _ t₄ ⟨rfl, standing₄, node⟩
          dsimp only
          rw [if_pos rfl, wp_ret]
          refine ⟨⟨⟨_, _, standing₄, reached⟩, ?_, rfl, rfl⟩, False.elim⟩
          rw [node, same₃]
          exact file

/-! ### The transfer -/

/-- What a transfer leaves; if it is complete there is a partial file. -/
def Arrived (site : Site) (h : Hash) (fs₀ : Store Name UInt8) (r : Int) (t : SysTape lib) : Prop :=
  ∃ d c, Standing lib site h fs₀ (Stands site d c) site.cwd d c t ∧ (r ≠ -1 → ∃ B, d = some B)

theorem transferCleanUp_stands (standing : Standing lib site h fs₀ U site.cwd d c t) {fp : Stream}
    (closed : fp.pending = []) {status : Int} (complete : status ≠ -1 → ∃ B, d = some B) :
    Wp (Alone lib) (Lasting site h) False (transferCleanUp (some fp) none status) t
      (Arrived site h fs₀) := by
  unfold transferCleanUp closeIf
  simp only [Prog.bind_eq, Prog.pure_eq, Prog.ret_bind]
  apply wp_keep standing (by simp) (only_fclose closed)
  intro t₁ _ standing
  apply wp_keep standing (by simp) (only_setRcvTimeout TIME_OUT)
  intro t₂ _ standing
  rw [if_pos rfl, wp_ret]
  exact ⟨d, c, standing.stands, complete⟩

theorem recvfile_stands {k : UInt64} {B : List UInt8} (start : Start site d c k B)
    (short : k.toNat ≤ 2 ^ 31) (standing : Standing lib site h fs₀ False site.cwd d c t) :
    Wp (soloSem (Alone lib)) (Lasting site h) False
      (recvfile site.mem site.resource_path site.K k (site.ckpt_resource_path h) site.resource_path)
      t (Arrived site h fs₀) := by
  unfold recvfile
  simp only [Prog.bind_eq]
  apply wp_bind
  apply wp_solo_loc
  apply wp_mono (openPartial_stands start short standing)
  rintro _ t₁ ⟨fp, rfl, ⟨B', standing, inside⟩, file, pos, pending⟩
  have present : ∀ status : Int, status ≠ -1 → ∃ B, some B' = some B := fun _ _ => ⟨B', rfl⟩
  dsimp only
  rw [if_pos rfl]
  apply wp_solo_recv (standing.lasting _)
  intro resource
  have standing := standing.record (a := .recv .resource) (by simp) resource
  cases resource with
  | none => exact wp_solo_loc (transferCleanUp_stands standing pending (present _))
  | some resource =>
      apply wp_keep_solo standing (by simp) (only_setRcvTimeout MAX_IO_TIME_OUT)
      intro t₂ same standing
      rw [if_pos rfl]
      have level : Level site h fs₀ (fp, resource.resource_size - k, k) t₂ := by
        refine ⟨⟨B', c, standing.stands, pos.le.trans inside⟩, ?_, pending, ?_⟩
        · rw [same]
          exact file
        · rw [pos, UInt64.ofNat_toNat]
      have rounds : Wp (soloSem (Alone lib)) (Lasting site h) False
          (Prog.iterate (recvRound site.K site.mem (site.ckpt_resource_path h) site.resource_path)
            (fp, resource.resource_size - k, k)) t₂ (Levelled site h fs₀) := by
        apply wp_iterate (Level site h fs₀) (fun _ _ => 0) level
        · intro st t level
          obtain ⟨B, c, standing, _⟩ := level.standing
          exact standing.lasting _
        · intro st t level
          exact recvRound_stands level
      apply wp_bind
      apply wp_mono rounds
      rintro ⟨fp, fckpt, ok⟩ t₃ ⟨⟨B, c, standing⟩, closed, nothing⟩
      cases nothing
      exact wp_solo_loc (transferCleanUp_stands standing closed (fun _ => ⟨B, rfl⟩))

/-! ### The verdict -/

/-- Once a file has been removed nothing more is said. -/
theorem wp_removed {p : L lib β} {post : β → SysTape lib → Prop} (removed : ¬ Undeleted t.log)
    (done : ∀ b t', ¬ Undeleted t'.log → post b t') :
    Wp (Alone lib) (Lasting site h) False p t post := by
  apply wp_invariant (fun t => ¬ Undeleted t.log) removed
  · rintro t e r _ removed ⟨w, w', _, _, rfl⟩ undeleted
    apply removed
    intro path r member
    exact undeleted path r (List.mem_cons_of_mem _ member)
  · intro t e removed _ undeleted
    exact absurd undeleted removed
  · exact done

theorem receiverCleanUp_stands (standing : Standing lib site h fs₀ U cwd d c t) {fp : Option Stream}
    (closed : ∀ fp', fp = some fp' → fp'.pending = []) (status : Int) :
    Wp (Alone lib) (Lasting site h) False (receiverCleanUp fp status) t (fun r t' => Lasting site h t' r) := by
  unfold receiverCleanUp closeIf
  simp only [Prog.bind_eq, Prog.pure_eq]
  cases fp with
  | none =>
      rw [Prog.ret_bind, wp_ret]
      exact standing.lasting _
  | some fp =>
      apply wp_keep standing (by simp) (only_fclose (closed fp rfl))
      intro t₁ _ standing
      rw [wp_ret]
      exact standing.lasting _

/-- Up to the first removal the files are as they were. -/
theorem cleanFiles_stands {X : List UInt8} (standing : Standing lib site h fs₀ U cwd (some X) c t)
    (fp : Option Stream) (status : Int) :
    Wp (Alone lib) (Lasting site h) False (cleanFiles fp status (render site.cwd) site.resource_path
        (site.ckpt_resource_path h)) t (fun r t' => Lasting site h t' r) := by
  have home : t.world.target (render site.cwd) = site.cwd := by
    rw [World.target, World.loc, resolve_render]
    apply Store.follow_eq_self
    intro l link
    rw [standing.view.ready.cwd] at link
    cases link
  have there : t.world.fs.node (t.world.target (render site.cwd)) = some .dir := by
    rw [home]
    exact standing.view.ready.cwd
  unfold cleanFiles
  simp only [Prog.bind_eq]
  apply wp_turn standing (by simp) (only_chdir there) standing.view home standing.enough
  intro t₁ _ standing₁
  rw [if_pos rfl]
  obtain ⟨i, file, _⟩ := standing₁.view.data_file
  rw [← standing₁.loc_data] at file
  have removes : Wp (Alone lib) (Lasting site h) False (rm site.resource_path) t₁
      (fun _ t' => ¬ Undeleted t'.log) := by
    unfold rm
    rw [show MAX_PATH_LENGTH = 4096 + 1 from rfl, rmTree]
    simp only [Prog.bind_eq, Prog.pure_eq]
    apply wp_keep standing₁ (by simp) (only_lstat_file file)
    intro t₂ _ standing₂
    dsimp only
    rw [← Prog.bind_ret (unlink site.resource_path)]
    apply wp_does_bind (standing₂.lasting _) False.elim
    intro r w' _
    apply wp_ret.mpr
    intro undeleted
    exact undeleted _ _ List.mem_cons_self
  apply wp_bind
  apply wp_mono removes
  intro ok t₂ removed
  apply wp_removed removed
  intro r t' removed _ undeleted
  exact absurd undeleted removed

/-- The log has not grown by a checkpoint. -/
theorem steady_unpublished (U : Prop) (w : World) :
    Steady (still : SysEnv lib) (fun log => Published log → U) (· = w) where
  env_refl _ _ := rfl
  keeps _ _ _ _ here same := same ▸ here
  grows log a r quiet calm published := by
    apply quiet
    apply published.earlier
    rintro p p' rfl
    exact calm

theorem md5_stands {X : List UInt8} (standing : Standing lib site h fs₀ U site.dir (some X) c t) :
    Wp (Alone lib) (Lasting site h) False (md5 (site.resource_name ++ dotZip)) t
      (fun out t' => out = some (lib.md5.digest X) ∧
        Standing lib site h fs₀ U site.dir (some X) c t') := by
  obtain ⟨i, file, content⟩ := standing.view.data_file
  have target := standing.view.ready.target_zip standing.cwd
  have again : ∀ t' : SysTape lib, (Published t'.log → U) → t'.world = t.world →
      Standing lib site h fs₀ U site.dir (some X) c t' :=
    fun t' published same => ⟨same ▸ standing.view, same ▸ standing.cwd, published, standing.enough⟩
  have hashes : Wp (Alone lib) (Lasting site h) False (md5 (site.resource_name ++ dotZip)) t
      (Digested (fun log => Published log → U) (· = t.world) False X) :=
    md5_wp (steady_unpublished U t.world) (by rintro _ rfl; exact ⟨target, file, content⟩)
      (fun t' e quiet same _ _ => (again t' quiet same).lasting e) standing.published rfl
  apply wp_mono hashes
  rintro out t' ⟨⟨quiet, same⟩, digest, answered⟩
  cases out with
  | none => exact absurd rfl (answered id)
  | some computed => exact ⟨congrArg some (digest computed rfl), again t' quiet same⟩

theorem finishReceiving_stands (avoids : site.Avoids lib h)
    {X : List UInt8} (standing : Standing lib site h fs₀ U site.cwd (some X) c t)
    {fp : Option Stream} (closed : ∀ fp', fp = some fp' → fp'.pending = []) (status : Int) :
    Wp (soloSem (Alone lib)) (Lasting site h) False
      (finishReceiving fp status h (render site.cwd) site.resource_name site.resource_dir
        site.resource_path (site.ckpt_resource_path h)) t (fun r t' => Lasting site h t' r) := by
  have there : t.world.target site.resource_dir = site.dir := by
    rw [World.target, World.loc, standing.cwd]
    apply Store.follow_eq_self
    intro l link
    rw [show resolve site.cwd site.resource_dir = site.dir from rfl, standing.view.ready.dir] at link
    cases link
  have dir : t.world.fs.node (t.world.target site.resource_dir) = some .dir := by
    rw [there]
    exact standing.view.ready.dir
  unfold finishReceiving
  simp only [Prog.bind_eq]
  apply wp_turn_solo standing (by simp) (only_chdir dir) standing.view there standing.enough
  intro t₁ _ standing
  rw [if_pos rfl]
  apply wp_bind
  apply wp_solo_loc
  apply wp_mono (md5_stands standing)
  rintro _ t₂ ⟨rfl, standing⟩
  dsimp only
  split
  · rename_i verified
    apply wp_solo_send (standing.lasting _)
    intro sent
    have standing := standing.record (a := .send .code Response.ok.code) (by simp) sent
    cases sent with
    | false => exact wp_solo_loc (receiverCleanUp_stands standing closed _)
    | true =>
        rw [if_pos rfl]
        apply wp_does_solo_bind (standing.lasting _) False.elim
        intro ok w' does
        obtain ⟨view, there⟩ := standing.view.extract avoids standing.cwd verified does
        have standing := standing.moved
          (e := .zipExtract (site.resource_name ++ dotZip) site.resource_dir) (by simp) ok view
          there standing.enough
        cases ok with
        | false => exact wp_solo_loc (receiverCleanUp_stands standing closed _)
        | true => exact wp_solo_loc (cleanFiles_stands standing fp status)
  · apply wp_solo_send (standing.lasting _)
    intro sent
    have standing := standing.record (a := .send .code Response.noIntegrity.code) (by simp) sent
    cases sent with
    | false => exact wp_solo_loc (receiverCleanUp_stands standing closed _)
    | true => exact wp_solo_loc (cleanFiles_stands standing fp status)

/-- A session for the hash `h`, wherever it is cut: if it has published a checkpoint and removed
    nothing, another session can resume. -/
theorem recvfileHandler_lasts {fs : Store Name UInt8} (ready : Ready site h fs)
    (avoids : site.Avoids lib h)
    (short : ∀ k B, Usable site (fs.fileAt site.data) (fs.fileAt (site.ckpt h)) k B →
      k.toNat ≤ 2 ^ 31) :
    Wp (soloSem (Alone lib)) (fun t a => Hears (· = h) t.log → Lasting site h t a) False
      (site.receive lib) ⟨⟨fs, site.cwd⟩, []⟩
      (fun r t => Hears (· = h) t.log → Lasting site h t r) := by
  have standing : Standing lib site h fs False site.cwd (fs.fileAt site.data)
      (fs.fileAt (site.ckpt h)) (⟨⟨fs, site.cwd⟩, []⟩ : SysTape lib) := by
    refine ⟨View.start ready, rfl, ?_, False.elim⟩
    rintro ⟨_, _, impossible⟩
    cases impossible
  have weaken : ∀ {p : P lib Int} {t : SysTape lib},
      Wp (soloSem (Alone lib)) (Lasting site h) False p t (fun r t' => Lasting site h t' r) →
      Wp (soloSem (Alone lib)) (fun t a => Hears (· = h) t.log → Lasting site h t a) False p t
        (fun r t' => Hears (· = h) t'.log → Lasting site h t' r) :=
    fun wp => wp_mono (wp_guard_mono wp (fun _ _ lasting _ => lasting)) (fun _ _ lasting _ => lasting)
  unfold Site.receive recvfileHandler
  simp only [Prog.bind_eq]
  apply wp_only_solo_bind only_getcwd (fun _ => standing.lasting _)
  have standing := standing.record (a := .loc .getcwd) (by simp) (some (render site.cwd))
  apply wp_solo_recv (fun _ => standing.lasting _)
  intro received
  have standing := standing.record (a := .recv .hash) (by simp) received
  cases received with
  | none => exact weaken (wp_solo_loc (receiverCleanUp_stands standing (by simp) _))
  | some hash =>
      by_cases same : hash = h
      · subst same
        apply weaken
        apply wp_bind
        apply wp_mono (negotiate_stands standing)
        rintro ⟨fp, status, offset⟩ t₂ ⟨standing, closed, starts⟩
        cases offset with
        | none => exact wp_solo_loc (receiverCleanUp_stands standing closed _)
        | some offset =>
            obtain ⟨B, start⟩ := starts offset rfl
            have near : offset.toNat ≤ 2 ^ 31 := by
              cases start with
              | anew => exact Nat.zero_le _
              | resume usable _ => exact short _ _ usable
            apply wp_bind
            apply wp_mono (recvfile_stands start near standing)
            rintro r t₃ ⟨d, c, standing, complete⟩
            split
            · exact wp_solo_loc (receiverCleanUp_stands standing closed _)
            · rename_i whole
              obtain ⟨X, rfl⟩ := complete whole
              exact finishReceiving_stands avoids standing closed status
      · apply wp_unheard
        intro hears
        exact same (hears hash List.mem_cons_self)

end Handler

end Filerail
