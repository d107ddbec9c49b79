/-
Module: Filerail.Proofs.Frame
Layer: Proofs
Purpose: What the receiving handler leaves alone, whoever sends to it, whatever calls fail, and wherever
  it is cut: the locations that are neither its partial file nor the checkpoint of the hash it was sent,
  nor below them, and that the archive does not land on. `Spares` says which calls keep off them;
  streams keep off them by their inodes.
Imports: Filerail.Proofs.Conduct
Main exports: Spared, Sparing, Spares, spares_step, Elsewhere, Hears, recvfileHandler_spares
-/
import Filerail.Proofs.Conduct

namespace Filerail

open FileStore ProgramLogic

variable {lib : Lib}

/-! ### The machine -/

/-- The archive, if it is one, does not land on the locations. -/
def Spared (lib : Lib) (K : Loc → Prop) (w : World) (path dir : CStr) : Prop :=
  ∀ bytes es, w.fs.fileAt (w.target path) = some bytes → lib.zip.entries bytes = some es →
    ∀ l, K l → ¬ w.fs.Lands (placements (w.target dir) es) l

/-- The machine, calls of which may fail, as long as the archives that are extracted spare the
    locations. -/
def Sparing (lib : Lib) (K : Loc → Prop) : Sem (Sys lib.md5.Ctx) Sys.Resp World :=
  fun w e r w' => sysSem lib True w e r w' ∧
    ∀ path dir, e = .zipExtract path dir → Spared lib K w path dir

/-! ### Calls and streams -/

/-- A stream through which no location is written to. -/
def Apart (K : Loc → Prop) (fs₀ : Store Name UInt8) (fp : Stream) : Prop :=
  ∀ l, K l → fs₀.node l ≠ some (.file fp.ino)

/-- A stream that is only read from, or apart. -/
def Idle (K : Loc → Prop) (fs₀ : Store Name UInt8) (fp : Stream) : Prop :=
  fp.pending = [] ∨ Apart K fs₀ fp

/-- The calls that keep off the locations, in a process whose current directory is `cwd`. -/
def Spares {Ctx : Type} (K : Loc → Prop) (fs₀ : Store Name UInt8) (cwd : Loc) : Sys Ctx → Prop
  | .fopen path .wb => ¬ K (resolve cwd path)
  | .fopen path .rPlusB => ¬ K (resolve cwd path)
  | .fwrite fp _ _ => Apart K fs₀ fp
  | .fflush fp => Idle K fs₀ fp
  | .fclose fp => Idle K fs₀ fp
  | .rename path path' => ¬ K (resolve cwd path) ∧ ¬ K (resolve cwd path')
  | .unlink path => ¬ K (resolve cwd path)
  | .rmdir path => ¬ K (resolve cwd path)
  | .zipOpen _ => False
  | .zipEntryOpen _ _ => False
  | .zipEntryFwrite _ _ => False
  | .zipEntryClose _ => False
  | .zipClose _ => False
  | _ => True

/-- What is known of the streams such calls answer. -/
def Opens {Ctx : Type} (K : Loc → Prop) (fs₀ : Store Name UInt8) : (e : Sys Ctx) → e.Resp → Prop
  | .fopen _ mode, r => ∀ fp, r = some fp → fp.pending = [] ∧ (mode ≠ .rb → Apart K fs₀ fp)
  | .fread fp _, r => r.2.pending = fp.pending ∧ r.2.ino = fp.ino
  | .fgetc fp, r => r.2.pending = fp.pending ∧ r.2.ino = fp.ino
  | .fwrite fp _ _, r => r.2.ino = fp.ino
  | .fflush fp, r => r.ino = fp.ino
  | _, _ => True

/-- The current directory behind a call. -/
def Stays {Ctx : Type} (w : World) : (e : Sys Ctx) → e.Resp → World → Prop
  | .chdir path, (moved : Bool), w' => w'.cwd = if moved = true then w.target path else w.cwd
  | .getcwd, (path : Option CStr), w' => w'.cwd = w.cwd ∧ ∀ home ∈ path, home = render w.cwd
  | _, _, w' => w'.cwd = w.cwd

section Calls

variable {K : Loc → Prop} {fs₀ : Store Name UInt8} {w w' : World}

theorem Intact.flushed (intact : Store.Intact K fs₀ w.fs) {fp : Stream} (apart : Apart K fs₀ fp)
    (bytes : List UInt8) (j : Nat) : Store.Intact K fs₀ (w.flushed fp bytes j).fs :=
  intact.write apart _

theorem Intact.flushed_idle (intact : Store.Intact K fs₀ w.fs) {fp : Stream} (idle : Idle K fs₀ fp)
    (j : Nat) : Store.Intact K fs₀ (w.flushed fp fp.pending j).fs := by
  rcases idle with empty | apart
  · rw [empty, flushed_nil]
    exact intact
  · exact Intact.flushed intact apart _ _

/-- A file opened at a location that is not kept is apart. -/
theorem apart_of_node (intact : Store.Intact K fs₀ w.fs) {l : Loc} (free : ¬ K l) {i : Nat}
    (file : w.fs.node l = some (.file i)) : Apart K fs₀ (.opened i) := by
  intro l' kept here
  rw [w.fs.ino_inj l' l i (intact.node l' _ kept here) file] at kept
  exact free kept

/-- A new file is apart. -/
theorem apart_of_create (intact : Store.Intact K fs₀ w.fs) {l : Loc} {i : Nat}
    {fs' : Store Name UInt8} (made : w.fs.create l = some (i, fs')) : Apart K fs₀ (.opened i) := by
  intro l' kept here
  have old := w.fs.ino_lt l' i (intact.node l' _ kept here)
  rw [(Store.create_eq_some made).1] at old
  exact Nat.lt_irrefl _ old

variable (unled : ∀ l t, fs₀.node l = some (.link t) → ¬ K t)

include unled

theorem fopen_spares {path : CStr} {mode : Mode} {r : Option Stream}
    (answer : sysSem lib True w (.fopen path mode) r w') (intact : Store.Intact K fs₀ w.fs)
    (free : mode ≠ .rb → ¬ K (resolve w.cwd path)) :
    Store.Intact K fs₀ w'.fs ∧ w'.cwd = w.cwd ∧
      ∀ fp, r = some fp → fp.pending = [] ∧ (mode ≠ .rb → Apart K fs₀ fp) := by
  have target : mode ≠ .rb → ¬ K (w.target path) := fun writes =>
    intact.follow_not unled (free writes) Store.maxLinks
  rcases answer with does | ⟨_, rfl, rfl⟩
  · cases mode with
    | rb =>
        rcases does with ⟨i, file, rfl, rfl⟩ | ⟨rfl, _, rfl⟩
        · refine ⟨intact, rfl, ?_⟩
          rintro _ ⟨⟩
          exact ⟨rfl, fun reads => absurd rfl reads⟩
        · exact ⟨intact, rfl, fun _ impossible => nomatch impossible⟩
    | rPlusB =>
        rcases does with ⟨i, file, rfl, rfl⟩ | ⟨rfl, _, rfl⟩
        · refine ⟨intact, rfl, ?_⟩
          rintro _ ⟨⟩
          exact ⟨rfl, fun writes => apart_of_node intact (target writes) file⟩
        · exact ⟨intact, rfl, fun _ impossible => nomatch impossible⟩
    | wb =>
        have target := target (by simp)
        rcases does with ⟨i, file, rfl, rfl⟩ | ⟨i, fs', made, rfl, rfl⟩ | ⟨rfl, _, _, rfl⟩
        · have apart := apart_of_node intact target file
          refine ⟨intact.write apart [], rfl, ?_⟩
          rintro _ ⟨⟩
          exact ⟨rfl, fun _ => apart⟩
        · refine ⟨intact.trans (Store.Intact.create made), rfl, ?_⟩
          rintro _ ⟨⟩
          exact ⟨rfl, fun _ => apart_of_create intact made⟩
        · exact ⟨intact, rfl, fun _ impossible => nomatch impossible⟩
  · exact ⟨intact, rfl, fun _ impossible => nomatch impossible⟩

/-- What one call leaves. -/
theorem spares_step {e : Sys lib.md5.Ctx} {r : e.Resp} (answer : Sparing lib K w e r w')
    (intact : Store.Intact K fs₀ w.fs) (spares : Spares K fs₀ w.cwd e) :
    Store.Intact K fs₀ w'.fs ∧ Opens K fs₀ e r ∧ Stays w e r w' := by
  obtain ⟨answer, careful⟩ := answer
  cases e with
  | getcwd =>
      obtain rfl := reads_same (e := .getcwd) trivial answer
      refine ⟨intact, trivial, rfl, ?_⟩
      rcases answer with ⟨rfl, _⟩ | ⟨_, rfl, _⟩
      · rintro _ ⟨⟩
        rfl
      · exact fun _ impossible => nomatch impossible
  | chdir path =>
      rcases answer with (⟨rfl, _, rfl⟩ | ⟨rfl, _, rfl⟩) | ⟨_, rfl, rfl⟩
      · exact ⟨intact, trivial, (if_pos rfl).symm⟩
      · exact ⟨intact, trivial, (if_neg Bool.false_ne_true).symm⟩
      · exact ⟨intact, trivial, (if_neg Bool.false_ne_true).symm⟩
  | fopen path mode =>
      obtain ⟨intact', same, opens⟩ := fopen_spares unled answer intact (by
        intro writes
        cases mode with
        | rb => exact absurd rfl writes
        | wb => exact spares
        | rPlusB => exact spares)
      exact ⟨intact', opens, same⟩
  | fread fp n =>
      obtain rfl := reads_same (e := .fread fp n) trivial answer
      refine ⟨intact, ?_, rfl⟩
      rcases answer with ⟨rfl, _⟩ | ⟨_, _, _, _, rfl, _⟩
      · exact ⟨rfl, rfl⟩
      · exact ⟨rfl, rfl⟩
  | fgetc fp =>
      obtain rfl := reads_same (e := .fgetc fp) trivial answer
      refine ⟨intact, ?_, rfl⟩
      rcases answer with (⟨_, _, rfl, _⟩ | ⟨_, rfl, _⟩) | ⟨_, rfl, _⟩
      · exact ⟨rfl, rfl⟩
      · exact ⟨rfl, rfl⟩
      · exact ⟨rfl, rfl⟩
  | fwrite fp buffer n =>
      rcases answer with ⟨bytes, j, _, _, rfl, rfl⟩ | ⟨_, bytes, j, m, _, _, _, rfl, rfl⟩
      · exact ⟨Intact.flushed intact spares _ _, rfl, rfl⟩
      · exact ⟨Intact.flushed intact spares _ _, rfl, rfl⟩
  | fflush fp =>
      rcases answer with ⟨rfl, rfl⟩ | ⟨_, j, rfl, rfl⟩
      · exact ⟨Intact.flushed_idle intact spares _, rfl, rfl⟩
      · exact ⟨Intact.flushed_idle intact spares _, rfl, rfl⟩
  | fclose fp =>
      rcases answer with same | ⟨_, j, same⟩
      · obtain rfl : w' = w.flushed fp fp.pending fp.pending.length := same
        exact ⟨Intact.flushed_idle intact spares _, trivial, rfl⟩
      · obtain rfl : w' = w.flushed fp fp.pending j := same
        exact ⟨Intact.flushed_idle intact spares _, trivial, rfl⟩
  | rename path path' =>
      rcases answer with (⟨fs', moved, rfl, rfl⟩ | ⟨_, rfl, rfl⟩) | ⟨_, rfl, rfl⟩
      · exact ⟨intact.trans (Store.Intact.rename spares.1 spares.2 moved), trivial, rfl⟩
      · exact ⟨intact, trivial, rfl⟩
      · exact ⟨intact, trivial, rfl⟩
  | unlink path =>
      rcases answer with (⟨fs', gone, rfl, rfl⟩ | ⟨_, rfl, rfl⟩) | ⟨_, rfl, rfl⟩
      · exact ⟨intact.trans (Store.Intact.unlink spares gone), trivial, rfl⟩
      · exact ⟨intact, trivial, rfl⟩
      · exact ⟨intact, trivial, rfl⟩
  | rmdir path =>
      rcases answer with (⟨fs', gone, rfl, rfl⟩ | ⟨_, rfl, rfl⟩) | ⟨_, rfl, rfl⟩
      · exact ⟨intact.trans (Store.Intact.rmdir spares gone), trivial, rfl⟩
      · exact ⟨intact, trivial, rfl⟩
      · exact ⟨intact, trivial, rfl⟩
  | zipExtract path dir =>
      have off := careful path dir rfl
      rcases answer with (⟨bytes, es, fs', file, read, extracts, rfl, rfl⟩ |
        ⟨bytes, es, fs', file, read, unpacks, rfl, rfl⟩ | ⟨_, rfl, rfl⟩) | ⟨_, rfl, rfl⟩
      · exact ⟨intact.trans (.of_extends (Store.unpacks_extract extracts) (off bytes es file read)),
          trivial, rfl⟩
      · exact ⟨intact.trans (.of_extends unpacks (off bytes es file read)), trivial, rfl⟩
      · exact ⟨intact, trivial, rfl⟩
      · exact ⟨intact, trivial, rfl⟩
  | crash =>
      rcases answer with dead | ⟨_, dead⟩
      · exact dead.elim
      · exact dead.elim
  | lstat path | stat path | access path mode | statvfs path | fseek fp offset | opendir path
  | zipCloseWild | md5Final ctx | setRcvTimeout seconds | scanf | protocolNotFollowed
  | remaining size =>
      have same : w' = w := by
        apply reads_same _ answer
        exact trivial
      subst same
      exact ⟨intact, trivial, rfl⟩
  | _ => exact spares.elim

end Calls

/-! ### The functions -/

/-- The locations are intact, in a process whose current directory is `cwd`. -/
structure Held (K : Loc → Prop) (fs₀ : Store Name UInt8) (cwd : Loc) (t : SysTape lib) : Prop where
  intact : Store.Intact K fs₀ t.world.fs
  cwd : t.world.cwd = cwd

/-- The machine of a session that nobody disturbs. -/
abbrev Careful (lib : Lib) (K : Loc → Prop) : Sem (Sys lib.md5.Ctx) Sys.Resp (SysTape lib) :=
  tapeSem (still : SysEnv lib) (Sparing lib K)

/-- The locations are intact at every call. -/
def Untouched {A : Type} (K : Loc → Prop) (fs₀ : Store Name UInt8) (t : SysTape lib) (_ : A) : Prop :=
  Store.Intact K fs₀ t.world.fs

section Functions

variable {K : Loc → Prop} {fs₀ : Store Name UInt8} {cwd : Loc} {t : SysTape lib} {α β : Type}

theorem Apart.idle {fp : Stream} (apart : Apart K fs₀ fp) : Idle K fs₀ fp :=
  Or.inr apart

theorem Apart.same {fp fp' : Stream} (apart : Apart K fs₀ fp) (ino : fp'.ino = fp.ino) :
    Apart K fs₀ fp' := by
  unfold Apart
  rw [ino]
  exact apart

theorem Held.record (held : Held K fs₀ cwd t) (a : Act (Sys lib.md5.Ctx) Schema.Val)
    (r : a.Answer Sys.Resp) : Held K fs₀ cwd (t.record a r) where
  intact := held.intact
  cwd := held.cwd

variable (unled : ∀ l t, fs₀.node l = some (.link t) → ¬ K t)

include unled

/-- The rule of a call. -/
theorem wp_spares {e : Sys lib.md5.Ctx} {f : e.Resp → L lib α} {post : α → SysTape lib → Prop}
    (held : Held K fs₀ cwd t) (spares : Spares K fs₀ cwd e)
    (next : ∀ r t', Store.Intact K fs₀ t'.world.fs → Opens K fs₀ e r → Stays t.world e r t'.world →
      Wp (Careful lib K) (Untouched K fs₀) False (f r) t' post) :
    Wp (Careful lib K) (Untouched K fs₀) False (Prog.bind (sys e) f) t post := by
  refine wp_perform_bind.mpr ⟨held.intact, False.elim, ?_⟩
  rintro r t' ⟨w, w', same, answer, rfl⟩
  cases same
  have spares : Spares K fs₀ t.world.cwd e := by
    rw [held.cwd]
    exact spares
  obtain ⟨intact, opens, stays⟩ := spares_step unled answer held.intact spares
  exact next r _ intact opens stays

/-- The rule of a call that does not go to another directory. -/
theorem wp_spares_here {e : Sys lib.md5.Ctx} {f : e.Resp → L lib α}
    {post : α → SysTape lib → Prop} (held : Held K fs₀ cwd t) (spares : Spares K fs₀ cwd e)
    (here : ∀ r w', Stays t.world e r w' → w'.cwd = t.world.cwd)
    (next : ∀ r t', Held K fs₀ cwd t' → Opens K fs₀ e r →
      Wp (Careful lib K) (Untouched K fs₀) False (f r) t' post) :
    Wp (Careful lib K) (Untouched K fs₀) False (Prog.bind (sys e) f) t post := by
  apply wp_spares unled held spares
  intro r t' intact opens stays
  exact next r t' ⟨intact, (here r _ stays).trans held.cwd⟩ opens

theorem wp_spares_last {e : Sys lib.md5.Ctx} {post : e.Resp → SysTape lib → Prop}
    (held : Held K fs₀ cwd t) (spares : Spares K fs₀ cwd e)
    (here : ∀ r w', Stays t.world e r w' → w'.cwd = t.world.cwd)
    (next : ∀ r t', Held K fs₀ cwd t' → Opens K fs₀ e r → post r t') :
    Wp (Careful lib K) (Untouched K fs₀) False (sys e) t post := by
  rw [← Prog.bind_ret (sys e)]
  apply wp_spares_here unled held spares here
  intro r t' held opens
  exact wp_ret.mpr (next r t' held opens)

/-- The same two rules in a communicating function. -/
theorem wp_spares_solo {e : Sys lib.md5.Ctx} {f : e.Resp → P lib α}
    {post : α → SysTape lib → Prop} (held : Held K fs₀ cwd t) (spares : Spares K fs₀ cwd e)
    (next : ∀ r t', Store.Intact K fs₀ t'.world.fs → Opens K fs₀ e r → Stays t.world e r t'.world →
      Wp (soloSem (Careful lib K)) (Untouched K fs₀) False (f r) t' post) :
    Wp (soloSem (Careful lib K)) (Untouched K fs₀) False (Prog.bind (Prog.loc (sys e)) f) t post := by
  apply wp_bind
  apply wp_solo_loc
  rw [← Prog.bind_ret (sys e)]
  apply wp_spares unled held spares
  intro r t' intact opens stays
  exact wp_ret.mpr (next r t' intact opens stays)

theorem wp_spares_call {e : Sys lib.md5.Ctx} {f : e.Resp → P lib α}
    {post : α → SysTape lib → Prop} (held : Held K fs₀ cwd t) (spares : Spares K fs₀ cwd e)
    (here : ∀ r w', Stays t.world e r w' → w'.cwd = t.world.cwd)
    (next : ∀ r t', Held K fs₀ cwd t' → Opens K fs₀ e r →
      Wp (soloSem (Careful lib K)) (Untouched K fs₀) False (f r) t' post) :
    Wp (soloSem (Careful lib K)) (Untouched K fs₀) False (Prog.bind (Prog.loc (sys e)) f) t post := by
  apply wp_bind
  apply wp_solo_loc
  exact wp_spares_last unled held spares here next

/-! #### Streams -/

theorem closeIf_spares (held : Held K fs₀ cwd t) {fp : Option Stream}
    (idle : ∀ fp', fp = some fp' → Idle K fs₀ fp') :
    Wp (Careful lib K) (Untouched K fs₀) False (closeIf fp) t (fun _ t' => Held K fs₀ cwd t') := by
  cases fp with
  | none => exact wp_ret.mpr held
  | some fp =>
      apply wp_spares_last unled held (e := .fclose fp) (idle fp rfl) (fun _ _ => id)
      intro _ t' held _
      exact held

theorem transferCleanUp_spares (held : Held K fs₀ cwd t) {fp fckpt : Option Stream} (status : Int)
    (idle : ∀ fp', fp = some fp' → Idle K fs₀ fp') (idle' : ∀ fp', fckpt = some fp' → Idle K fs₀ fp') :
    Wp (Careful lib K) (Untouched K fs₀) False (transferCleanUp fp fckpt status) t
      (fun _ t' => Held K fs₀ cwd t') := by
  unfold transferCleanUp
  simp only [Prog.bind_eq, Prog.pure_eq]
  apply wp_bind
  apply wp_mono (closeIf_spares unled held idle)
  intro _ t₁ held
  apply wp_bind
  apply wp_mono (closeIf_spares unled held idle')
  intro _ t₂ held
  apply wp_spares_here unled held (e := .setRcvTimeout TIME_OUT) trivial (fun _ _ => id)
  intro ok t₃ held _
  cases ok with
  | true => exact wp_ret.mpr held
  | false => exact wp_ret.mpr held

theorem receiverCleanUp_spares (held : Held K fs₀ cwd t) {fp : Option Stream} (status : Int)
    (idle : ∀ fp', fp = some fp' → Idle K fs₀ fp') :
    Wp (Careful lib K) (Untouched K fs₀) False (receiverCleanUp fp status) t
      (fun _ t' => Store.Intact K fs₀ t'.world.fs) := by
  apply wp_bind
  apply wp_mono (closeIf_spares unled held idle)
  intro _ t₁ held
  exact wp_ret.mpr held.intact

/-! #### The transfer -/

theorem openPartial_spares (held : Held K fs₀ cwd t) {path : CStr} (free : ¬ K (resolve cwd path))
    (offset : UInt64) :
    Wp (Careful lib K) (Untouched K fs₀) False (openPartial path offset) t
      (fun out t' => Held K fs₀ cwd t' ∧ ∀ fp, out.1 = some fp → Apart K fs₀ fp) := by
  unfold openPartial
  simp only [Prog.bind_eq, Prog.pure_eq]
  split
  · apply wp_spares_here unled held (e := .fopen path .wb) free (fun _ _ => id)
    intro fp t' held opens
    rw [wp_ret]
    exact ⟨held, fun fp' same => (opens fp' same).2 (by simp)⟩
  · apply wp_spares_here unled held (e := .fopen path .rPlusB) free (fun _ _ => id)
    intro fp t₁ held opens
    apply wp_iterate (fun st t => Held K fs₀ cwd t ∧ ∀ fp, st.2 = some fp → Apart K fs₀ fp)
      (fun _ _ => 0)
    · exact ⟨held, fun fp' same => (opens fp' same).2 (by simp)⟩
    · intro st t inside
      exact inside.1.intact
    · rintro ⟨i, fp⟩ t ⟨held, apart⟩
      unfold seekRound
      simp only [Prog.bind_eq, Prog.pure_eq]
      split
      · cases fp with
        | none =>
            apply wp_spares_here unled held (e := .crash) trivial (fun _ _ => id)
            intro dead
            cases dead
        | some fp =>
            apply wp_spares_here unled held (e := .fgetc fp) trivial (fun _ _ => id)
            rintro ⟨c, fp'⟩ t' held ⟨_, ino⟩
            have apart' := (apart fp rfl).same ino
            cases c with
            | none =>
                rw [wp_ret]
                refine ⟨held, ?_⟩
                rintro _ ⟨⟩
                exact apart'
            | some c =>
                rw [wp_ret]
                refine ⟨⟨held, ?_⟩, False.elim⟩
                rintro _ ⟨⟩
                exact apart'
      · rw [wp_ret]
        exact ⟨held, apart⟩

theorem writeCheckpoint_spares (held : Held K fs₀ cwd t) {tmp ckpt : CStr}
    (free : ¬ K (resolve cwd tmp)) (free' : ¬ K (resolve cwd ckpt)) (image : List UInt8) :
    Wp (Careful lib K) (Untouched K fs₀) False (writeCheckpoint image tmp ckpt) t
      (fun out t' => Held K fs₀ cwd t' ∧ ∀ fp, out.1 = some fp → Apart K fs₀ fp) := by
  have nothing : ∀ fp : Stream, (none : Option Stream) = some fp → Apart K fs₀ fp :=
    fun _ impossible => nomatch impossible
  unfold writeCheckpoint
  simp only [Prog.bind_eq, Prog.pure_eq]
  apply wp_spares_here unled held (e := .fopen tmp .wb) free (fun _ _ => id)
  intro fckpt t₁ held opens
  cases fckpt with
  | none =>
      rw [wp_ret]
      exact ⟨held, nothing⟩
  | some fckpt =>
      have apart := (opens fckpt rfl).2 (by simp)
      apply wp_spares_here unled held (e := .fwrite fckpt image sizeofCheckpoint) apart (fun _ _ => id)
      rintro ⟨written, fckpt'⟩ t₂ held ino
      have apart' : Apart K fs₀ fckpt' := apart.same ino
      dsimp only
      split
      · rw [wp_ret]
        refine ⟨held, ?_⟩
        rintro _ ⟨⟩
        exact apart'
      · apply wp_spares_here unled held (e := .fflush fckpt') apart'.idle (fun _ _ => id)
        intro fckpt'' t₃ held ino
        have apart'' : Apart K fs₀ fckpt'' := apart'.same ino
        apply wp_spares_here unled held (e := .fclose fckpt'') apart''.idle (fun _ _ => id)
        intro _ t₄ held _
        apply wp_spares_here unled held (e := .rename tmp ckpt) ⟨free, free'⟩ (fun _ _ => id)
        intro renamed t₅ held _
        rw [wp_ret]
        exact ⟨held, nothing⟩

/-- The files of a transfer: the partial file, the checkpoint and the temporary checkpoint. -/
structure Elsewhere (K : Loc → Prop) (cwd : Loc) (path ckpt : CStr) : Prop where
  off_data : ∀ l, K l → ¬ resolve cwd path <+: l
  off_ckpt : ∀ l, K l → ¬ resolve cwd ckpt <+: l
  off_tmp : ¬ K (resolve cwd (ckpt ++ dotTmp))

omit unled in
theorem Elsewhere.free_data {path ckpt : CStr} (elsewhere : Elsewhere K cwd path ckpt) :
    ¬ K (resolve cwd path) :=
  fun kept => elsewhere.off_data _ kept (List.prefix_refl _)

omit unled in
theorem Elsewhere.free_ckpt {path ckpt : CStr} (elsewhere : Elsewhere K cwd path ckpt) :
    ¬ K (resolve cwd ckpt) :=
  fun kept => elsewhere.off_ckpt _ kept (List.prefix_refl _)

theorem recvRound_spares {path ckpt : CStr} (elsewhere : Elsewhere K cwd path ckpt) (key : AESKeys)
    (mem : Memory) {st : Stream × UInt64 × UInt64} (held : Held K fs₀ cwd t)
    (apart : Apart K fs₀ st.1) :
    Wp (soloSem (Careful lib K)) (Untouched K fs₀) False (recvRound key mem ckpt path st) t
      (LoopPost False (fun st t => Held K fs₀ cwd t ∧ Apart K fs₀ st.1) (fun _ _ => 0) 0
        (fun out t => Held K fs₀ cwd t ∧ Apart K fs₀ out.1 ∧
          ∀ fp, out.2.1 = some fp → Apart K fs₀ fp)) := by
  have nothing : ∀ fp : Stream, (none : Option Stream) = some fp → Apart K fs₀ fp :=
    fun _ impossible => nomatch impossible
  obtain ⟨fp, size, offset⟩ := st
  unfold recvRound
  simp only [Prog.bind_eq, Prog.pure_eq]
  apply wp_spares_call unled held (e := .remaining size) trivial (fun _ _ => id)
  intro _ t₁ held _
  split
  · rw [wp_ret]
    exact ⟨held, apart, nothing⟩
  · apply wp_solo_recv held.intact
    intro data
    have held := held.record (.recv .packet) data
    cases data with
    | none =>
        rw [wp_ret]
        exact ⟨held, apart, nothing⟩
    | some data =>
        dsimp only
        split
        · rw [wp_ret]
          exact ⟨held, apart, nothing⟩
        · rename_i out _
          apply wp_spares_call unled held
            (e := .fwrite fp out.toList data.data_size.toNat) apart (fun _ _ => id)
          rintro ⟨written, fp'⟩ t₂ held ino
          have apart' : Apart K fs₀ fp' := apart.same ino
          split
          · rw [wp_ret]
            exact ⟨held, apart', nothing⟩
          · apply wp_spares_call unled held (e := .fflush fp') apart'.idle (fun _ _ => id)
            intro fp'' t₃ held ino
            have apart'' : Apart K fs₀ fp'' := apart'.same ino
            apply wp_bind
            apply wp_solo_loc
            apply wp_mono (writeCheckpoint_spares unled held elsewhere.off_tmp elsewhere.free_ckpt _)
            rintro ⟨fckpt, ok⟩ t₄ ⟨held, closed⟩
            cases ok with
            | true => exact wp_ret.mpr ⟨⟨held, apart''⟩, False.elim⟩
            | false => exact wp_ret.mpr ⟨held, apart'', closed⟩

theorem recvfile_spares {path ckpt : CStr} (elsewhere : Elsewhere K cwd path ckpt) (key : AESKeys)
    (mem : Memory) (offset : UInt64) (held : Held K fs₀ cwd t) :
    Wp (soloSem (Careful lib K)) (Untouched K fs₀) False (recvfile mem path key offset ckpt path) t
      (fun _ t' => Held K fs₀ cwd t') := by
  have nothing : ∀ fp : Stream, (none : Option Stream) = some fp → Idle K fs₀ fp :=
    fun _ impossible => nomatch impossible
  unfold recvfile
  simp only [Prog.bind_eq]
  apply wp_bind
  apply wp_solo_loc
  apply wp_mono (openPartial_spares unled held elsewhere.free_data offset)
  rintro ⟨fp, moved⟩ t₁ ⟨held, apart⟩
  have idle : ∀ fp', fp = some fp' → Idle K fs₀ fp' := fun fp' same => (apart fp' same).idle
  cases moved with
  | false => exact wp_solo_loc (transferCleanUp_spares unled held _ idle nothing)
  | true =>
      cases fp with
      | none => exact wp_solo_loc (transferCleanUp_spares unled held _ nothing nothing)
      | some fp =>
          apply wp_solo_recv held.intact
          intro resource
          have held := held.record (.recv .resource) resource
          cases resource with
          | none => exact wp_solo_loc (transferCleanUp_spares unled held _ idle nothing)
          | some resource =>
              apply wp_spares_call unled held (e := .setRcvTimeout MAX_IO_TIME_OUT) trivial
                (fun _ _ => id)
              intro ok t₂ held _
              cases ok with
              | false => exact wp_solo_loc (transferCleanUp_spares unled held _ idle nothing)
              | true =>
                  rw [if_pos rfl]
                  apply wp_bind
                  apply wp_mono (wp_iterate (fun st t => Held K fs₀ cwd t ∧ Apart K fs₀ st.1)
                    (fun _ _ => 0) ⟨held, apart fp rfl⟩ (fun _ _ inside => inside.1.intact)
                    (fun st t inside => recvRound_spares unled elsewhere key mem inside.1 inside.2))
                  rintro ⟨fp, fckpt, ok⟩ t₃ ⟨held, apart, apart'⟩
                  apply wp_solo_loc
                  apply transferCleanUp_spares unled held
                  · rintro _ ⟨⟩
                    exact apart.idle
                  · intro fp' same
                    exact (apart' fp' same).idle

/-! #### The hash -/

theorem md5Round_spares {st : lib.md5.Ctx × Stream × Nat} (held : Held K fs₀ cwd t)
    (clean : st.2.1.pending = []) :
    Wp (Careful lib K) (Untouched K fs₀) False (md5Round st) t
      (LoopPost False (fun st t => Held K fs₀ cwd t ∧ st.2.1.pending = []) (fun _ _ => 0) 0
        (fun out t => Held K fs₀ cwd t ∧ out.1.pending = [])) := by
  obtain ⟨ctx, fp, size⟩ := st
  unfold md5Round
  simp only [Prog.bind_eq, Prog.pure_eq]
  split
  · rw [wp_ret]
    exact ⟨held, clean⟩
  · apply wp_spares_here unled held (e := .fread fp (min BUFFER_SIZE size)) trivial (fun _ _ => id)
    rintro ⟨buffer, fp'⟩ t' held ⟨same, _⟩
    have clean' : fp'.pending = [] := same.trans clean
    dsimp only
    split
    · rw [wp_ret]
      exact ⟨held, clean'⟩
    · rw [wp_ret]
      exact ⟨⟨held, clean'⟩, False.elim⟩

theorem md5_spares (held : Held K fs₀ cwd t) (path : CStr) :
    Wp (Careful lib K) (Untouched K fs₀) False (md5 path) t (fun _ t' => Held K fs₀ cwd t') := by
  unfold md5
  simp only [Prog.bind_eq, Prog.pure_eq]
  apply wp_spares_here unled held (e := .fopen path .rb) trivial (fun _ _ => id)
  intro fp t₁ held opens
  cases fp with
  | none => exact wp_ret.mpr held
  | some fp =>
      have clean := (opens fp rfl).1
      unfold md5Opened
      simp only [Prog.bind_eq, Prog.pure_eq]
      apply wp_spares_here unled held (e := .stat path) trivial (fun _ _ => id)
      intro st t₂ held _
      cases st with
      | none => exact wp_ret.mpr held
      | some st =>
          have rounds : Wp (Careful lib K) (Untouched K fs₀) False
              (Prog.iterate md5Round (lib.md5.init, fp, st.st_size)) t₂
              (fun out t => Held K fs₀ cwd t ∧ out.1.pending = []) := by
            apply wp_iterate (fun st t => Held K fs₀ cwd t ∧ st.2.1.pending = []) (fun _ _ => 0)
            · exact ⟨held, clean⟩
            · intro st t inside
              exact inside.1.intact
            · intro st t inside
              exact md5Round_spares unled inside.1 inside.2
          apply wp_bind
          apply wp_mono rounds
          rintro ⟨fp, ctx⟩ t₃ ⟨held, clean⟩
          have closes : ∀ (t : SysTape lib) (r : Option Hash), Held K fs₀ cwd t →
              Wp (Careful lib K) (Untouched K fs₀) False
                (Prog.bind (fclose fp) (fun _ => Prog.ret r)) t
                (fun _ t' => Held K fs₀ cwd t') := by
            intro t r held
            apply wp_spares_here unled held (e := .fclose fp) (Or.inl clean) (fun _ _ => id)
            intro _ t' held _
            exact wp_ret.mpr held
          cases ctx with
          | none => exact closes t₃ none held
          | some ctx =>
              apply wp_spares_here unled held (e := .md5Final ctx) trivial (fun _ _ => id)
              intro hash t₄ held _
              exact closes t₄ (some hash) held

/-! #### Removal -/

omit unled in
theorem resolve_entry {path : CStr} (some_path : path ≠ []) (name : Name) :
    resolve cwd (path ++ slash :: name.1) = resolve cwd path ++ [name] := by
  rw [resolve_join _ some_path, walk_plain name.2.2.1, List.nil_append, enter_ok name.2]

theorem rmEntries_spares {remove : CStr → L lib Bool} {dir : CStr} (some_dir : dir ≠ [])
    (below : ∀ l, K l → ¬ resolve cwd dir <+: l)
    (inner : ∀ (name : Name) (t : SysTape lib), Held K fs₀ cwd t →
      Wp (Careful lib K) (Untouched K fs₀) False (remove (dir ++ slash :: name.1)) t
        (fun _ t' => Held K fs₀ cwd t'))
    (names : List Name) (held : Held K fs₀ cwd t) :
    Wp (Careful lib K) (Untouched K fs₀) False (rmEntries remove dir names) t
      (fun _ t' => Held K fs₀ cwd t') := by
  induction names generalizing t with
  | nil => exact wp_ret.mpr held
  | cons entry rest ih =>
      unfold rmEntries
      simp only [Prog.bind_eq, Prog.pure_eq]
      apply wp_spares_here unled held (e := .lstat (dir ++ slash :: entry.1)) trivial (fun _ _ => id)
      intro st t₁ held _
      have onwards : ∀ (ok : Bool) (t : SysTape lib), Held K fs₀ cwd t →
          Wp (Careful lib K) (Untouched K fs₀) False
            (if ok = true then rmEntries remove dir rest else Prog.ret false) t
            (fun _ t' => Held K fs₀ cwd t') := by
        intro ok t held
        cases ok with
        | true => exact ih held
        | false => exact wp_ret.mpr held
      cases st with
      | none => exact wp_ret.mpr held
      | some st =>
          dsimp only
          split
          · apply wp_bind
            apply wp_mono (inner entry t₁ held)
            intro ok t₂ held
            exact onwards ok t₂ held
          · have free : ¬ K (resolve cwd (dir ++ slash :: entry.1)) := by
              rw [resolve_entry some_dir]
              intro kept
              exact below _ kept (List.prefix_append _ _)
            apply wp_spares_here unled held (e := .unlink (dir ++ slash :: entry.1)) free (fun _ _ => id)
            intro ok t₂ held _
            exact onwards ok t₂ held

theorem rmTree_spares (depth : Nat) {path : CStr} (some_path : path ≠ [])
    (below : ∀ l, K l → ¬ resolve cwd path <+: l) (held : Held K fs₀ cwd t) :
    Wp (Careful lib K) (Untouched K fs₀) False (rmTree depth path) t
      (fun _ t' => Held K fs₀ cwd t') := by
  have free : ¬ K (resolve cwd path) := fun kept => below _ kept (List.prefix_refl _)
  induction depth generalizing path t with
  | zero =>
      apply wp_spares_here unled held (e := .crash) trivial (fun _ _ => id)
      intro dead
      cases dead
  | succ depth ih =>
      unfold rmTree
      simp only [Prog.bind_eq, Prog.pure_eq]
      apply wp_spares_here unled held (e := .lstat path) trivial (fun _ _ => id)
      intro st t₁ held _
      cases st with
      | none => exact wp_ret.mpr held
      | some st =>
          dsimp only
          split
          · apply wp_spares_last unled held (e := .unlink path) free (fun _ _ => id)
            intro _ _ held _
            exact held
          · apply wp_spares_last unled held (e := .unlink path) free (fun _ _ => id)
            intro _ _ held _
            exact held
          · apply wp_spares_here unled held (e := .opendir path) trivial (fun _ _ => id)
            intro names t₂ held _
            cases names with
            | none => exact wp_ret.mpr held
            | some names =>
                apply wp_bind
                apply wp_mono (rmEntries_spares unled some_path below _ names held)
                · intro ok t₃ held
                  cases ok with
                  | false => exact wp_ret.mpr held
                  | true =>
                      apply wp_spares_last unled held (e := .rmdir path) free (fun _ _ => id)
                      intro _ _ held _
                      exact held
                · intro name t held
                  have deeper : ∀ l, K l → ¬ resolve cwd (path ++ slash :: name.1) <+: l := by
                    intro l kept at_l
                    rw [resolve_entry some_path] at at_l
                    exact below l kept ((List.prefix_append _ _).trans at_l)
                  exact ih (by simp) deeper held (fun kept => deeper _ kept (List.prefix_refl _))
          · exact wp_ret.mpr held

/-! #### The handler -/

/-- The way back to where the process came from. -/
theorem wp_spares_home {f : Bool → L lib α} {post : α → SysTape lib → Prop}
    (intact : Store.Intact K fs₀ t.world.fs) (home : ∀ t, fs₀.node cwd ≠ some (.link t))
    (next : ∀ moved t', Store.Intact K fs₀ t'.world.fs → (moved = true → t'.world.cwd = cwd) →
      Wp (Careful lib K) (Untouched K fs₀) False (f moved) t' post) :
    Wp (Careful lib K) (Untouched K fs₀) False (Prog.bind (chdir (render cwd)) f) t post := by
  have held : Held K fs₀ t.world.cwd t := ⟨intact, rfl⟩
  apply wp_spares unled held (e := .chdir (render cwd)) trivial
  intro moved t' intact' _ stays
  apply next moved t' intact'
  rintro rfl
  have target : t.world.target (render cwd) = cwd := by
    rw [World.target, World.loc, resolve_render]
    exact Store.follow_eq_self (fun l link => home l (intact.links _ _ link)) _
  exact (stays : _ = if _ then _ else _).trans ((if_pos rfl).trans target)

theorem cleanFiles_spares {path ckpt : CStr} (some_path : path ≠ []) (some_ckpt : ckpt ≠ [])
    (elsewhere : Elsewhere K cwd path ckpt) (home : ∀ t, fs₀.node cwd ≠ some (.link t))
    (intact : Store.Intact K fs₀ t.world.fs) {fp : Option Stream}
    (idle : ∀ fp', fp = some fp' → Idle K fs₀ fp') (status : Int) :
    Wp (Careful lib K) (Untouched K fs₀) False (cleanFiles fp status (render cwd) path ckpt) t
      (fun _ t' => Store.Intact K fs₀ t'.world.fs) := by
  unfold cleanFiles
  simp only [Prog.bind_eq]
  apply wp_spares_home unled intact home
  intro moved t₁ intact there
  cases moved with
  | false => exact receiverCleanUp_spares unled ⟨intact, rfl⟩ _ idle
  | true =>
      rw [if_pos rfl]
      apply wp_bind
      apply wp_mono (rmTree_spares unled _ some_path elsewhere.off_data ⟨intact, there rfl⟩)
      intro removed t₂ held
      cases removed with
      | false => exact receiverCleanUp_spares unled held _ idle
      | true =>
          rw [if_pos rfl]
          apply wp_bind
          apply wp_mono (rmTree_spares unled _ some_ckpt elsewhere.off_ckpt held)
          intro removed t₃ held
          cases removed with
          | false => exact receiverCleanUp_spares unled held _ idle
          | true => exact receiverCleanUp_spares unled held _ idle

/-- What the search for a checkpoint leaves. -/
def Searched (K : Loc → Prop) (fs₀ : Store Name UInt8) (cwd : Loc)
    (out : Option Stream × Int × Option UInt64) (t : SysTape lib) : Prop :=
  Held K fs₀ cwd t ∧ ∀ fp, out.1 = some fp → fp.pending = []

omit unled in
theorem restart_spares (held : Held K fs₀ cwd t) {fp : Option Stream} (status : Int)
    (clean : ∀ fp', fp = some fp' → fp'.pending = []) :
    Wp (soloSem (Careful lib K)) (Untouched K fs₀) False (restart fp status) t
      (Searched K fs₀ cwd) := by
  apply wp_solo_send held.intact
  intro sent
  have held := held.record (.send .code Command.restart.code) sent
  cases sent with
  | false => exact wp_ret.mpr ⟨held, clean⟩
  | true => exact wp_ret.mpr ⟨held, clean⟩

theorem offerResume_spares (held : Held K fs₀ cwd t) {fp : Stream} (clean : fp.pending = [])
    (ckpt : Checkpoint) :
    Wp (soloSem (Careful lib K)) (Untouched K fs₀) False (offerResume fp ckpt) t
      (Searched K fs₀ cwd) := by
  have clean : ∀ fp', some fp = some fp' → fp'.pending = [] := by
    rintro _ ⟨⟩
    exact clean
  unfold offerResume
  simp only [Prog.bind_eq, Prog.pure_eq]
  apply wp_solo_send held.intact
  intro sent
  have held := held.record (.send .code Command.resume.code) sent
  cases sent with
  | false => exact wp_ret.mpr ⟨held, clean⟩
  | true =>
      rw [if_pos rfl]
      apply wp_solo_recv held.intact
      intro response
      have held := held.record (.recv .code) response
      cases response with
      | none => exact wp_ret.mpr ⟨held, clean⟩
      | some response_type =>
          dsimp only
          split
          · apply wp_solo_send held.intact
            intro sent
            have held := held.record (.send .offset ckpt.offset) sent
            cases sent with
            | false => exact wp_ret.mpr ⟨held, clean⟩
            | true => exact wp_ret.mpr ⟨held, clean⟩
          · split
            · exact wp_ret.mpr ⟨held, clean⟩
            · apply wp_spares_call unled held (e := .protocolNotFollowed) trivial (fun _ _ => id)
              intro _ t' held _
              exact wp_ret.mpr ⟨held, clean⟩

theorem negotiate_spares (held : Held K fs₀ cwd t) (ckpt path : CStr) :
    Wp (soloSem (Careful lib K)) (Untouched K fs₀) False (negotiate ckpt path) t
      (Searched K fs₀ cwd) := by
  have nothing : ∀ fp : Stream, (none : Option Stream) = some fp → fp.pending = [] :=
    fun _ impossible => nomatch impossible
  unfold negotiate
  simp only [Prog.bind_eq, Prog.pure_eq]
  apply wp_spares_call unled held (e := .lstat ckpt) trivial (fun _ _ => id)
  intro found t₁ held _
  cases found with
  | none => exact restart_spares held _ nothing
  | some _ =>
      apply wp_spares_call unled held (e := .access ckpt .r) trivial (fun _ _ => id)
      intro readable t₂ held _
      cases readable with
      | false => exact wp_ret.mpr ⟨held, nothing⟩
      | true =>
          rw [if_pos rfl]
          apply wp_spares_call unled held (e := .fopen ckpt .rb) trivial (fun _ _ => id)
          intro fp t₃ held opens
          cases fp with
          | none => exact restart_spares held _ nothing
          | some fp =>
              apply wp_spares_call unled held (e := .fread fp sizeofCheckpoint) trivial
                (fun _ _ => id)
              rintro ⟨bytes, fp'⟩ t₄ held ⟨same, _⟩
              have clean : fp'.pending = [] := same.trans (opens fp rfl).1
              have clean' : ∀ fp, some fp' = some fp → fp.pending = [] := by
                rintro _ ⟨⟩
                exact clean
              dsimp only
              split
              · exact restart_spares held _ clean'
              · split
                · exact restart_spares held _ clean'
                · apply wp_spares_call unled held (e := .stat path) trivial (fun _ _ => id)
                  intro st t₅ held _
                  cases st with
                  | none => exact restart_spares held _ clean'
                  | some st =>
                      dsimp only
                      split
                      · exact restart_spares held _ clean'
                      · exact offerResume_spares unled held clean _

/-- An end of the handler in some directory. -/
theorem giveUp_spares (intact : Store.Intact K fs₀ t.world.fs) {fp : Option Stream} (status : Int)
    (clean : ∀ fp', fp = some fp' → fp'.pending = []) :
    Wp (soloSem (Careful lib K)) (Untouched K fs₀) False (Prog.loc (receiverCleanUp fp status)) t
      (fun _ t' => Store.Intact K fs₀ t'.world.fs) := by
  apply wp_solo_loc
  have held : Held K fs₀ t.world.cwd t := ⟨intact, rfl⟩
  apply receiverCleanUp_spares unled held
  intro fp' same
  exact Or.inl (clean fp' same)

theorem finishReceiving_spares {path ckpt : CStr} (some_path : path ≠ []) (some_ckpt : ckpt ≠ [])
    (elsewhere : Elsewhere K cwd path ckpt) (home : ∀ t, fs₀.node cwd ≠ some (.link t))
    (held : Held K fs₀ cwd t) {fp : Option Stream}
    (clean : ∀ fp', fp = some fp' → fp'.pending = []) (status : Int) (hash : Hash)
    (resource_name resource_dir : CStr) :
    Wp (soloSem (Careful lib K)) (Untouched K fs₀) False
      (finishReceiving fp status hash (render cwd) resource_name resource_dir path ckpt) t
      (fun _ t' => Store.Intact K fs₀ t'.world.fs) := by
  have idle : ∀ fp', fp = some fp' → Idle K fs₀ fp' := fun fp' same => Or.inl (clean fp' same)
  have cleans : ∀ (t : SysTape lib), Store.Intact K fs₀ t.world.fs →
      Wp (soloSem (Careful lib K)) (Untouched K fs₀) False
        (Prog.loc (cleanFiles fp status (render cwd) path ckpt)) t
        (fun _ t' => Store.Intact K fs₀ t'.world.fs) := fun t intact =>
    wp_solo_loc (cleanFiles_spares unled some_path some_ckpt elsewhere home intact idle status)
  unfold finishReceiving
  simp only [Prog.bind_eq]
  apply wp_spares_solo unled held (e := .chdir resource_dir) trivial
  intro moved t₁ intact₁ _ _
  cases moved with
  | false => exact giveUp_spares unled intact₁ _ clean
  | true =>
      rw [if_pos rfl]
      apply wp_bind
      apply wp_solo_loc
      have held₁ : Held K fs₀ t₁.world.cwd t₁ := ⟨intact₁, rfl⟩
      apply wp_mono (md5_spares unled held₁ _)
      intro computed t₂ held₂
      cases computed with
      | none => exact giveUp_spares unled held₂.intact _ clean
      | some computed_hash =>
          dsimp only
          split
          · apply wp_solo_send held₂.intact
            intro sent
            have held₃ := held₂.record (.send .code Response.ok.code) sent
            cases sent with
            | false => exact giveUp_spares unled held₃.intact _ clean
            | true =>
                rw [if_pos rfl]
                apply wp_spares_call unled held₃
                  (e := .zipExtract (resource_name ++ dotZip) resource_dir) trivial (fun _ _ => id)
                intro extracted t₄ held₄ _
                cases extracted with
                | false => exact giveUp_spares unled held₄.intact _ clean
                | true => exact cleans t₄ held₄.intact
          · apply wp_solo_send held₂.intact
            intro sent
            have held₃ := held₂.record (.send .code Response.noIntegrity.code) sent
            cases sent with
            | false => exact giveUp_spares unled held₃.intact _ clean
            | true => exact cleans _ held₃.intact

end Functions

/-! ### Runs -/

section Runs

variable {α : Type}

/-- The hashes a handler has been sent. -/
def Hears (allowed : Hash → Prop) (log : List (SysEvent lib)) : Prop :=
  ∀ h, (⟨.recv .hash, some h⟩ : SysEvent lib) ∈ log → allowed h

/-- The hash that is received here is allowed. -/
def admits (allowed : Hash → Prop) [DecidablePred allowed] : SysEvent lib → Bool
  | ⟨.recv .hash, some h⟩ => allowed h
  | _ => true

instance (allowed : Hash → Prop) [DecidablePred allowed] (log : List (SysEvent lib)) :
    Decidable (Hears allowed log) :=
  decidable_of_iff (log.all (admits allowed) = true) (by
    rw [List.all_eq_true]
    constructor
    · intro all h member
      exact of_decide_eq_true (all _ member)
    · intro hears event member
      unfold admits
      split
      · exact decide_eq_true (hears _ member)
      · rfl)

/-- A handler that has been sent a hash that is not allowed may do anything. -/
theorem wp_unheard {allowed : Hash → Prop} {env : SysEnv lib}
    {sem : Sem (Sys lib.md5.Ctx) Sys.Resp World} {p : P lib α} {t : SysTape lib}
    {guard : SysTape lib → Option (Act (Sys lib.md5.Ctx) Schema.Val) → Prop}
    {post : α → SysTape lib → Prop} (heard : ¬ Hears allowed t.log) :
    Wp (soloSem (tapeSem env sem)) (fun t a => Hears allowed t.log → guard t a) False p t
      (fun r t' => Hears allowed t'.log → post r t') := by
  apply wp_invariant (fun t => ¬ Hears allowed t.log) heard
  · intro t a r t' heard answer hears
    apply heard
    intro h member
    apply hears h
    rw [solo_logs answer]
    exact List.mem_cons_of_mem _ member
  · intro t a heard hears
    exact absurd hears heard
  · intro r t heard hears
    exact absurd hears heard

theorem recvfileHandler_spares {K : Loc → Prop} {allowed : Hash → Prop} {mem : Memory}
    {resource_path ckpt_path : CStr} (some_path : resource_path ≠ []) {w : World}
    (unled : ∀ l t, w.fs.node l = some (.link t) → ¬ K t)
    (home : ∀ t, w.fs.node w.cwd ≠ some (.link t))
    (elsewhere : ∀ h, allowed h →
      Elsewhere K w.cwd resource_path (checkpointPath mem ckpt_path h))
    (resource_name resource_dir : CStr) (key : AESKeys) :
    Wp (soloSem (Careful lib K)) (fun t _ => Hears allowed t.log → Store.Intact K w.fs t.world.fs)
      False (recvfileHandler mem resource_name resource_dir resource_path ckpt_path key) ⟨w, []⟩
      (fun _ t => Hears allowed t.log → Store.Intact K w.fs t.world.fs) := by
  have held : Held K w.fs w.cwd (⟨w, []⟩ : SysTape lib) := ⟨.refl _ _, rfl⟩
  have nothing : ∀ fp : Stream, (none : Option Stream) = some fp → fp.pending = [] :=
    fun _ impossible => nomatch impossible
  have giveUp : ∀ {t : SysTape lib} (fp : Option Stream) (status : Int),
      (∀ fp', fp = some fp' → fp'.pending = []) → Store.Intact K w.fs t.world.fs →
      Wp (soloSem (Careful lib K)) (Untouched K w.fs) False
        (Prog.loc (receiverCleanUp fp status)) t (fun _ t' => Store.Intact K w.fs t'.world.fs) :=
    fun fp status clean intact => giveUp_spares unled intact status clean
  have weaken : ∀ {p : P lib Int} {t : SysTape lib},
      Wp (soloSem (Careful lib K)) (Untouched K w.fs) False p t
        (fun _ t' => Store.Intact K w.fs t'.world.fs) →
      Wp (soloSem (Careful lib K)) (fun t _ => Hears allowed t.log → Store.Intact K w.fs t.world.fs)
        False p t (fun _ t' => Hears allowed t'.log → Store.Intact K w.fs t'.world.fs) :=
    fun wp => wp_mono (wp_guard_mono wp (fun _ _ intact _ => intact)) (fun _ _ intact _ => intact)
  unfold recvfileHandler
  simp only [Prog.bind_eq]
  have leaves : Wp (Careful lib K) (Untouched K w.fs) False (sys .getcwd) ⟨w, []⟩
      (fun (path : Option CStr) t =>
        Held K w.fs w.cwd t ∧ ∀ here ∈ path, here = render w.cwd) := by
    rw [← Prog.bind_ret (sys .getcwd)]
    apply wp_spares unled held (e := .getcwd) trivial
    intro path t intact _ stays
    exact wp_ret.mpr ⟨⟨intact, stays.1⟩, stays.2⟩
  have leaves' : Wp (Careful lib K) (fun t _ => Hears allowed t.log → Store.Intact K w.fs t.world.fs)
      False (sys .getcwd) ⟨w, []⟩ _ := wp_guard_mono leaves (fun _ _ intact _ => intact)
  apply wp_bind
  apply wp_solo_loc
  apply wp_mono leaves'
  rintro path t₁ ⟨held, here⟩
  cases path with
  | none => exact weaken (giveUp none _ nothing held.intact)
  | some current_dir =>
      obtain rfl := here current_dir rfl
      apply wp_solo_recv (fun _ => held.intact)
      intro received
      have held := held.record (.recv .hash) received
      cases received with
      | none => exact weaken (giveUp none _ nothing held.intact)
      | some hash =>
          by_cases permitted : allowed hash
          · have away := elsewhere hash permitted
            have some_ckpt : checkpointPath mem ckpt_path hash ≠ [] := by
              unfold checkpointPath
              simp
            apply weaken
            apply wp_bind
            apply wp_mono (negotiate_spares unled held _ _)
            rintro ⟨fp, status, offset⟩ t₂ ⟨held, clean⟩
            cases offset with
            | none => exact giveUp fp _ clean held.intact
            | some offset =>
                apply wp_bind
                apply wp_mono (recvfile_spares unled away key mem offset held)
                intro r t₃ held
                split
                · exact giveUp fp _ clean held.intact
                · exact finishReceiving_spares unled some_path some_ckpt away home held clean _ _ _ _
          · apply wp_unheard
            intro hears
            exact permitted (hears hash List.mem_cons_self)

end Runs

end Filerail
