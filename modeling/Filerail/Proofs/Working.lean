/-
Module: Filerail.Proofs.Working
Layer: Proofs
Purpose: Calls of a process that nobody disturbs, on an operating system that does what it is asked.
  There most calls have a single answer. `Only` says which one it is, with one lemma for each call and
  situation, so that a verification follows the code call by call instead of unfolding the semantics.
Imports: Filerail.Proofs.Local
Main exports: Alone, Only, wp_only_bind, wp_does_bind, wp_only_call_bind, wp_does_call_bind,
  wp_only_solo_bind, wp_does_solo_bind
-/
import Filerail.Proofs.Local

namespace Filerail

open FileStore ProgramLogic

variable {lib : Lib}

/-- A process on its own, whose calls do not fail. -/
abbrev Alone (lib : Lib) : Sem (Sys lib.md5.Ctx) Sys.Resp (SysTape lib) :=
  tapeSem still (sysSem lib False)

theorem answers_alone {t : SysTape lib} {e : Sys lib.md5.Ctx} {r : e.Resp} {w' : World} :
    Answers still False t e r w' ↔ Does lib t.world e r w' := by
  constructor
  · rintro ⟨w, same, does | ⟨impossible, _⟩⟩
    · exact (same : t.world = w) ▸ does
    · exact impossible.elim
  · intro does
    exact ⟨t.world, rfl, Or.inl does⟩

/-- The one answer a call has. -/
def Only (lib : Lib) (w : World) (e : Sys lib.md5.Ctx) (r : e.Resp) (w' : World) : Prop :=
  ∀ r₁ w₁, Does lib w e r₁ w₁ ↔ r₁ = r ∧ w₁ = w'

section Rules

variable {total : Prop} {α : Type} {guard : SysTape lib → Option (Sys lib.md5.Ctx) → Prop}

theorem wp_does_bind {e : Sys lib.md5.Ctx} {f : e.Resp → L lib α} {t : SysTape lib}
    {post : α → SysTape lib → Prop} (here : guard t (some e))
    (able : total → ∃ r w', Does lib t.world e r w')
    (next : ∀ r w', Does lib t.world e r w' →
      Wp (Alone lib) guard total (f r) (Tape.after t e r w') post) :
    Wp (Alone lib) guard total (Prog.bind (sys e) f) t post := by
  apply wp_sys_bind here
  · intro ask
    obtain ⟨r, w', does⟩ := able ask
    exact ⟨r, w', answers_alone.mpr does⟩
  · intro r w' answer
    exact next r w' (answers_alone.mp answer)

/-- The step of a call that does what it is there for. -/
theorem step_does {e : Sys lib.md5.Ctx} {k : e.Resp → L lib α} {t : SysTape lib} {r : e.Resp}
    {w' : World} (does : Does lib t.world e r w') :
    Prog.Step (Alone lib) (.call e k, t) (k r, Tape.after t e r w') :=
  .call ⟨t.world, w', rfl, Or.inl does, rfl⟩

theorem wp_only_bind {e : Sys lib.md5.Ctx} {f : e.Resp → L lib α} {t : SysTape lib}
    {post : α → SysTape lib → Prop} {r : e.Resp} {w' : World} (only : Only lib t.world e r w')
    (here : guard t (some e))
    (next : Wp (Alone lib) guard total (f r) (Tape.after t e r w') post) :
    Wp (Alone lib) guard total (Prog.bind (sys e) f) t post := by
  apply wp_does_bind here
  · intro _
    exact ⟨r, w', (only r w').mpr ⟨rfl, rfl⟩⟩
  · intro r₁ w₁ does
    obtain ⟨rfl, rfl⟩ := (only r₁ w₁).mp does
    exact next

end Rules

section Lifted

variable {total lossy : Prop} {β P' : Type} {proto : Protocol P' Schema.Val} {side : Side}
  {guard : Endpoint (SysTape lib) P' → Option (Act (Sys lib.md5.Ctx) Schema.Val) → Prop}
  {post : β → Endpoint (SysTape lib) P' → Prop}

/-- A call inside a communicating function. -/
theorem wp_does_call_bind {e : Sys lib.md5.Ctx} {f : e.Resp → P lib β} {t : SysTape lib} {p : P'}
    {b : Bool} (here : guard ⟨t, p, b⟩ (some (.loc e)))
    (able : total → ∃ r w', Does lib t.world e r w')
    (next : ∀ r w', Does lib t.world e r w' →
      Wp (endpointSem proto side lossy (Alone lib)) guard total (f r)
        ⟨Tape.after t e r w', p, b⟩ post) :
    Wp (endpointSem proto side lossy (Alone lib)) guard total
      (Prog.bind (Prog.loc (sys e)) f) ⟨t, p, b⟩ post := by
  apply wp_loc_bind
  rw [← Prog.bind_ret (sys e)]
  apply wp_does_bind here able
  intro r w' does
  exact wp_ret.mpr (next r w' does)

theorem wp_only_call_bind {e : Sys lib.md5.Ctx} {f : e.Resp → P lib β} {t : SysTape lib} {p : P'}
    {b : Bool} {r : e.Resp} {w' : World} (only : Only lib t.world e r w')
    (here : guard ⟨t, p, b⟩ (some (.loc e)))
    (next : Wp (endpointSem proto side lossy (Alone lib)) guard total (f r)
      ⟨Tape.after t e r w', p, b⟩ post) :
    Wp (endpointSem proto side lossy (Alone lib)) guard total
      (Prog.bind (Prog.loc (sys e)) f) ⟨t, p, b⟩ post := by
  apply wp_does_call_bind here
  · intro _
    exact ⟨r, w', (only r w').mpr ⟨rfl, rfl⟩⟩
  · intro r₁ w₁ does
    obtain ⟨rfl, rfl⟩ := (only r₁ w₁).mp does
    exact next

end Lifted

section Solo

variable {total : Prop} {β : Type}
  {guard : SysTape lib → Option (Act (Sys lib.md5.Ctx) Schema.Val) → Prop}
  {post : β → SysTape lib → Prop}

/-- A call of a function whose peer may do anything. -/
theorem wp_does_solo_bind {e : Sys lib.md5.Ctx} {f : e.Resp → P lib β} {t : SysTape lib}
    (here : guard t (some (.loc e))) (able : total → ∃ r w', Does lib t.world e r w')
    (next : ∀ r w', Does lib t.world e r w' →
      Wp (soloSem (Alone lib)) guard total (f r) (Tape.after t e r w') post) :
    Wp (soloSem (Alone lib)) guard total (Prog.bind (Prog.loc (sys e)) f) t post := by
  apply wp_solo_bind here
  · intro ask
    obtain ⟨r, w', does⟩ := able ask
    exact ⟨r, w', answers_alone.mpr does⟩
  · intro r w' answer
    exact next r w' (answers_alone.mp answer)

theorem wp_only_solo_bind {e : Sys lib.md5.Ctx} {f : e.Resp → P lib β} {t : SysTape lib}
    {r : e.Resp} {w' : World} (only : Only lib t.world e r w') (here : guard t (some (.loc e)))
    (next : Wp (soloSem (Alone lib)) guard total (f r) (Tape.after t e r w') post) :
    Wp (soloSem (Alone lib)) guard total (Prog.bind (Prog.loc (sys e)) f) t post := by
  apply wp_does_solo_bind here
  · intro _
    exact ⟨r, w', (only r w').mpr ⟨rfl, rfl⟩⟩
  · intro r₁ w₁ does
    obtain ⟨rfl, rfl⟩ := (only r₁ w₁).mp does
    exact next

end Solo

/-! ### What the calls answer -/

section Answers

variable {w : World} {path path' : CStr}

theorem only_getcwd : Only lib w .getcwd (some (render w.cwd)) w :=
  fun _ _ => Iff.rfl

theorem only_chdir (dir : w.fs.node (w.target path) = some .dir) :
    Only lib w (.chdir path) true { w with cwd := w.target path } := by
  intro r w'
  constructor
  · rintro (⟨rfl, _, rfl⟩ | ⟨_, other, _⟩)
    · exact ⟨rfl, rfl⟩
    · exact absurd dir other
  · rintro ⟨rfl, rfl⟩
    exact Or.inl ⟨rfl, dir, rfl⟩

theorem only_lstat_absent (absent : w.fs.node (w.loc path) = none) :
    Only lib w (.lstat path) none w := by
  intro r w'
  exact and_congr_left' (statOf_absent absent)

theorem only_lstat_file {i : Nat} (file : w.fs.node (w.loc path) = some (.file i)) :
    Only lib w (.lstat path) (some ⟨.reg, (w.fs.data i).length⟩) w := by
  intro r w'
  exact and_congr_left' (statOf_file file)

theorem only_stat_absent (absent : w.fs.node (w.target path) = none) :
    Only lib w (.stat path) none w := by
  intro r w'
  exact and_congr_left' (statOf_absent absent)

theorem only_stat_file {i : Nat} (file : w.fs.node (w.target path) = some (.file i)) :
    Only lib w (.stat path) (some ⟨.reg, (w.fs.data i).length⟩) w := by
  intro r w'
  exact and_congr_left' (statOf_file file)

theorem only_access {mode : Access} (present : w.fs.node (w.target path) ≠ none) :
    Only lib w (.access path mode) true w := by
  intro r w'
  constructor
  · rintro ⟨found, rfl⟩
    exact ⟨found.mpr present, rfl⟩
  · rintro ⟨rfl, rfl⟩
    exact ⟨⟨fun _ => present, fun _ => rfl⟩, rfl⟩

theorem only_fopen_file {mode : Mode} (keeps : mode ≠ .wb) {i : Nat}
    (file : w.fs.node (w.target path) = some (.file i)) :
    Only lib w (.fopen path mode) (some (.opened i)) w := by
  have opens : ∀ r w', ((∃ j, w.fs.node (w.target path) = some (.file j) ∧
      r = some (.opened j) ∧ w' = w) ∨
      (r = none ∧ (∀ j, w.fs.node (w.target path) ≠ some (.file j)) ∧ w' = w)) ↔
        r = some (Stream.opened i) ∧ w' = w := by
    intro r w'
    constructor
    · rintro (⟨j, here, rfl, rfl⟩ | ⟨_, other, _⟩)
      · rw [file] at here
        cases here
        exact ⟨rfl, rfl⟩
      · exact absurd file (other i)
    · rintro ⟨rfl, rfl⟩
      exact Or.inl ⟨i, file, rfl, rfl⟩
  cases mode with
  | wb => exact absurd rfl keeps
  | rb => exact opens
  | rPlusB => exact opens

theorem only_fopen_truncate {i : Nat} (file : w.fs.node (w.target path) = some (.file i)) :
    Only lib w (.fopen path .wb) (some (.opened i)) { w with fs := w.fs.setData i [] } := by
  intro r w'
  constructor
  · rintro (⟨j, here, rfl, rfl⟩ | ⟨j, fs', made, _, _⟩ | ⟨_, other, _, _⟩)
    · rw [file] at here
      cases here
      exact ⟨rfl, rfl⟩
    · rw [(Store.create_eq_some made).2.1] at file
      cases file
    · exact absurd file (other i)
  · rintro ⟨rfl, rfl⟩
    exact Or.inl ⟨i, file, rfl, rfl⟩

theorem only_fopen_create {i : Nat} {fs' : Store Name UInt8}
    (made : w.fs.create (w.target path) = some (i, fs')) :
    Only lib w (.fopen path .wb) (some (.opened i)) { w with fs := fs' } := by
  intro r w'
  constructor
  · rintro (⟨j, here, _, _⟩ | ⟨j, fs₁, made', rfl, rfl⟩ | ⟨_, _, other, _⟩)
    · rw [(Store.create_eq_some made).2.1] at here
      cases here
    · rw [made] at made'
      cases made'
      exact ⟨rfl, rfl⟩
    · rw [made] at other
      cases other
  · rintro ⟨rfl, rfl⟩
    exact Or.inr (Or.inl ⟨i, fs', made, rfl, rfl⟩)

theorem only_fread (fp : Stream) (n : Nat) :
    Only lib w (.fread fp n) (((w.fs.data fp.ino).drop fp.pos).take n,
      { fp with pos := fp.pos + (((w.fs.data fp.ino).drop fp.pos).take n).length }) w :=
  fun _ _ => Iff.rfl

/-- The first bytes of an opened file. -/
theorem only_fread_start {i : Nat} {bs : List UInt8} (content : w.fs.data i = bs) (n : Nat) :
    ∃ fp, fp.pending = [] ∧ Only lib w (.fread (.opened i) n) (bs.take n, fp) w := by
  refine ⟨{ Stream.opened i with pos := 0 + (bs.take n).length }, rfl, ?_⟩
  have read : Only lib w (.fread (.opened i) n) _ w := only_fread (.opened i) n
  rwa [show (Stream.opened i).ino = i from rfl, show (Stream.opened i).pos = 0 from rfl, content,
    List.drop_zero] at read

theorem only_fgetc {fp : Stream} {c : UInt8} (more : (w.fs.data fp.ino)[fp.pos]? = some c) :
    Only lib w (.fgetc fp) (some c, { fp with pos := fp.pos + 1 }) w := by
  intro r w'
  constructor
  · rintro (⟨c', here, rfl, rfl⟩ | ⟨past, _, _⟩)
    · rw [more] at here
      cases here
      exact ⟨rfl, rfl⟩
    · rw [more] at past
      cases past
  · rintro ⟨rfl, rfl⟩
    exact Or.inl ⟨c, more, rfl, rfl⟩

theorem only_fflush (fp : Stream) :
    Only lib w (.fflush fp) (fp.flushed fp.pending fp.pending.length)
      (w.flushed fp fp.pending fp.pending.length) :=
  fun _ _ => Iff.rfl

theorem only_fclose {fp : Stream} (closed : fp.pending = []) : Only lib w (.fclose fp) () w := by
  intro r w'
  have same : w.flushed fp fp.pending fp.pending.length = w := by
    rw [closed, flushed_nil]
  constructor
  · intro does
    exact ⟨rfl, (does : w' = _).trans same⟩
  · rintro ⟨_, rfl⟩
    exact same.symm

theorem only_rename {fs' : Store Name UInt8}
    (moved : w.fs.rename (w.loc path) (w.loc path') = some fs') :
    Only lib w (.rename path path') true { w with fs := fs' } := by
  intro r w'
  constructor
  · rintro (⟨fs₁, moved', rfl, rfl⟩ | ⟨failed, _, _⟩)
    · rw [moved] at moved'
      cases moved'
      exact ⟨rfl, rfl⟩
    · rw [moved] at failed
      cases failed
  · rintro ⟨rfl, rfl⟩
    exact Or.inl ⟨fs', moved, rfl, rfl⟩

theorem only_unlink {fs' : Store Name UInt8} (gone : w.fs.unlink (w.loc path) = some fs') :
    Only lib w (.unlink path) true { w with fs := fs' } := by
  intro r w'
  constructor
  · rintro (⟨fs₁, gone', rfl, rfl⟩ | ⟨failed, _, _⟩)
    · rw [gone] at gone'
      cases gone'
      exact ⟨rfl, rfl⟩
    · rw [gone] at failed
      cases failed
  · rintro ⟨rfl, rfl⟩
    exact Or.inl ⟨fs', gone, rfl, rfl⟩

theorem only_setRcvTimeout (seconds : Nat) : Only lib w (.setRcvTimeout seconds) true w :=
  fun _ _ => Iff.rfl

theorem only_remaining (size : UInt64) : Only lib w (.remaining size) () w :=
  fun _ _ => ⟨fun same => ⟨rfl, same⟩, fun same => same.2⟩

end Answers

/-! ### Removing a file -/

section Removing

variable {total : Prop} {guard : SysTape lib → Option (Sys lib.md5.Ctx) → Prop} {t : SysTape lib}
  {path : CStr}

/-- `filerail_rm` on a name that is not there. -/
theorem rm_absent_wp (absent : t.world.fs.node (t.world.loc path) = none)
    (look : guard t (some (.lstat path))) :
    Wp (Alone lib) guard total (rm path) t
      (fun r t' => r = false ∧ t'.world = t.world ∧ t.log <:+ t'.log) := by
  unfold rm
  rw [show MAX_PATH_LENGTH = 4096 + 1 from rfl, rmTree]
  simp only [Prog.bind_eq, Prog.pure_eq]
  refine wp_only_bind (only_lstat_absent absent) look ?_
  rw [wp_ret]
  exact ⟨rfl, rfl, List.suffix_cons _ _⟩

/-- `filerail_rm` on a regular file. -/
theorem rm_file_wp {i : Nat} (file : t.world.fs.node (t.world.loc path) = some (.file i))
    {fs' : Store Name UInt8} (gone : t.world.fs.unlink (t.world.loc path) = some fs')
    (look : guard t (some (.lstat path)))
    (remove : ∀ t' : SysTape lib, t'.world = t.world → guard t' (some (.unlink path))) :
    Wp (Alone lib) guard total (rm path) t
      (fun r t' => r = true ∧ t'.world = { t.world with fs := fs' } ∧ t.log <:+ t'.log) := by
  unfold rm
  rw [show MAX_PATH_LENGTH = 4096 + 1 from rfl, rmTree]
  simp only [Prog.bind_eq, Prog.pure_eq]
  refine wp_only_bind (only_lstat_file file) look ?_
  dsimp only
  rw [← Prog.bind_ret (unlink path)]
  refine wp_only_bind (only_unlink gone) (remove _ rfl) ?_
  rw [wp_ret]
  exact ⟨rfl, rfl, (List.suffix_cons _ _).trans (List.suffix_cons _ _)⟩

end Removing

/-! ### Writing and flushing -/

section Writing

variable {w w' : World} {fp : Stream}

/-- A write from inside the buffer takes the bytes of the buffer, and hands some of them on. -/
theorem fwrite_inside {buffer : List UInt8} {n : Nat} {r : Nat × Stream} (fits : n ≤ buffer.length)
    (does : Does lib w (.fwrite fp buffer n) r w') :
    ∃ j, r = (n, fp.flushed (fp.pending ++ buffer.take n) j) ∧
      w' = w.flushed fp (fp.pending ++ buffer.take n) j := by
  obtain ⟨bytes, j, size, inside, rfl, rfl⟩ := does
  rw [List.take_of_length_le (size.trans_le fits)] at inside
  subst inside
  exact ⟨j, rfl, rfl⟩

/-- What is written and then flushed arrives at the position of the stream. -/
theorem flushed_flushed {bytes : List UInt8} {j : Nat}
    (inside : fp.pos ≤ (w.fs.data fp.ino).length) :
    (w.flushed fp bytes j).flushed (fp.flushed bytes j) (bytes.drop j) (bytes.drop j).length =
      { w with fs := w.fs.setData fp.ino (splice (w.fs.data fp.ino) fp.pos bytes) } := by
  simp only [World.flushed, Stream.flushed, Store.setData_data_self, Store.setData_setData,
    List.take_length, splice_splice inside, List.take_append_drop]

theorem flushed_all (fp : Stream) (bytes : List UInt8) (j : Nat) :
    (fp.flushed bytes j).flushed (bytes.drop j) (bytes.drop j).length =
      { fp with pos := fp.pos + bytes.length, pending := [] } := by
  have position : fp.pos + (bytes.take j).length + (bytes.drop j).length = fp.pos + bytes.length := by
    rw [List.length_take, List.length_drop]
    omega
  simp only [Stream.flushed, List.take_length, List.drop_length, position]

/-- A flush behind a write. -/
theorem only_fflush_written {bytes : List UInt8} (j : Nat)
    (inside : fp.pos ≤ (w.fs.data fp.ino).length) :
    Only lib (w.flushed fp bytes j) (.fflush (fp.flushed bytes j))
      { fp with pos := fp.pos + bytes.length, pending := [] }
      { w with fs := w.fs.setData fp.ino (splice (w.fs.data fp.ino) fp.pos bytes) } := by
  rw [← flushed_flushed (j := j) inside, ← flushed_all fp bytes j]
  exact only_fflush _

end Writing

end Filerail
