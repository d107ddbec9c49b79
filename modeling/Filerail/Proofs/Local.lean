/-
Module: Filerail.Proofs.Local
Layer: Proofs
Purpose: How local calls are verified, and the specification of `filerail_md5`. The rules come for any
  environment that may change the world between two calls and for an operating system whose calls may
  fail. `Steady` names a stretch of a run during which the environment keeps an invariant of the
  world; under it the hash loop computes the digest of the file it reads, whatever its length.
Imports: Filerail.Core.Operations
Main exports: SysEnv, wp_sys_bind, wp_sys, wp_call_bind, wp_solo_bind, Steady, md5_wp
-/
import Filerail.Core.Operations

namespace Filerail

open FileStore ProgramLogic

variable {lib : Lib}

/-- What has happened in a run of the program. -/
abbrev SysEvent (lib : Lib) := Event (E := Sys lib.md5.Ctx) Sys.Resp Schema.Val

/-- The state of a program: its world and its log. -/
abbrev SysTape (lib : Lib) := Tape (SysEvent lib) World

/-- What others may do to the world of the program, depending on what it has done so far. -/
abbrev SysEnv (lib : Lib) := List (SysEvent lib) → World → World → Prop

/-- The tape after a local call. -/
abbrev Tape.after (t : SysTape lib) (e : Sys lib.md5.Ctx) (r : e.Resp) (w : World) : SysTape lib :=
  ⟨w, ⟨.loc e, r⟩ :: t.log⟩

/-- What the system answers a call with. -/
abbrev Answers (env : SysEnv lib) (faulty : Prop) (t : SysTape lib) (e : Sys lib.md5.Ctx)
    (r : e.Resp) (w' : World) : Prop :=
  ∃ w, env t.log t.world w ∧ sysSem lib faulty w e r w'

section Rules

variable {env : SysEnv lib} {faulty total : Prop} {α : Type}
  {guard : SysTape lib → Option (Sys lib.md5.Ctx) → Prop}

/-- The rule of a local call. -/
theorem wp_sys_bind {e : Sys lib.md5.Ctx} {f : e.Resp → L lib α} {t : SysTape lib}
    {post : α → SysTape lib → Prop} (here : guard t (some e))
    (able : total → ∃ r w', Answers env faulty t e r w')
    (next : ∀ r w', Answers env faulty t e r w' →
      Wp (tapeSem env (sysSem lib faulty)) guard total (f r) (Tape.after t e r w') post) :
    Wp (tapeSem env (sysSem lib faulty)) guard total (Prog.bind (sys e) f) t post := by
  refine wp_perform_bind.mpr ⟨here, fun ask => ?_, ?_⟩
  · obtain ⟨r, w', w, changed, answer⟩ := able ask
    exact ⟨r, _, w, w', changed, answer, rfl⟩
  · rintro r t' ⟨w, w', changed, answer, rfl⟩
    exact next r w' ⟨w, changed, answer⟩

theorem wp_sys {e : Sys lib.md5.Ctx} {t : SysTape lib} {post : e.Resp → SysTape lib → Prop}
    (here : guard t (some e)) (able : total → ∃ r w', Answers env faulty t e r w')
    (next : ∀ r w', Answers env faulty t e r w' → post r (Tape.after t e r w')) :
    Wp (tapeSem env (sysSem lib faulty)) guard total (sys e) t post := by
  rw [← Prog.bind_ret (sys e)]
  exact wp_sys_bind here able (fun r w' answer => wp_ret.mpr (next r w' answer))

/-- The same for a call that always returns. -/
theorem wp_alive {e : Sys lib.md5.Ctx} {f : e.Resp → L lib α} {t : SysTape lib}
    {post : α → SysTape lib → Prop} (refl : ∀ log w, env log w w) (alive : e ≠ .crash)
    (here : guard t (some e))
    (next : ∀ r w', Answers env faulty t e r w' →
      Wp (tapeSem env (sysSem lib faulty)) guard total (f r) (Tape.after t e r w') post) :
    Wp (tapeSem env (sysSem lib faulty)) guard total (Prog.bind (sys e) f) t post := by
  refine wp_sys_bind here (fun _ => ?_) next
  obtain ⟨r, w', does⟩ := does_answers t.world e alive
  exact ⟨r, w', t.world, refl _ _, Or.inl does⟩

end Rules

section Lifted

variable {env : SysEnv lib} {faulty total lossy : Prop} {α β P' : Type}
  {proto : Protocol P' Schema.Val} {side : Side}
  {guard : Endpoint (SysTape lib) P' → Option (Act (Sys lib.md5.Ctx) Schema.Val) → Prop}

/-- The rule of a local function inside a communicating one. -/
theorem wp_loc_bind {p : L lib α} {f : α → P lib β} {s : Endpoint (SysTape lib) P'}
    {post : β → Endpoint (SysTape lib) P' → Prop}
    (wp : Wp (tapeSem env (sysSem lib faulty)) (fun t e => guard { s with tape := t } (e.map .loc))
      total p s.tape (fun a t =>
        Wp (endpointSem proto side lossy (tapeSem env (sysSem lib faulty))) guard total (f a)
          { s with tape := t } post)) :
    Wp (endpointSem proto side lossy (tapeSem env (sysSem lib faulty))) guard total
      (Prog.bind p.loc f) s post :=
  wp_bind (wp_endpoint_loc wp)

/-- The rule of a local call inside a communicating function. -/
theorem wp_call_bind {e : Sys lib.md5.Ctx} {f : e.Resp → P lib β} {s : Endpoint (SysTape lib) P'}
    {post : β → Endpoint (SysTape lib) P' → Prop} (here : guard s (some (.loc e)))
    (able : total → ∃ r w', Answers env faulty s.tape e r w')
    (next : ∀ r w', Answers env faulty s.tape e r w' →
      Wp (endpointSem proto side lossy (tapeSem env (sysSem lib faulty))) guard total (f r)
        { s with tape := Tape.after s.tape e r w' } post) :
    Wp (endpointSem proto side lossy (tapeSem env (sysSem lib faulty))) guard total
      (Prog.bind (Prog.loc (sys e)) f) s post :=
  wp_loc_bind (wp_sys here able next)

end Lifted

section Solo

variable {env : SysEnv lib} {faulty total : Prop} {β : Type}
  {guard : SysTape lib → Option (Act (Sys lib.md5.Ctx) Schema.Val) → Prop}

/-- The rule of a local call in a function whose peer may do anything. -/
theorem wp_solo_bind {e : Sys lib.md5.Ctx} {f : e.Resp → P lib β} {t : SysTape lib}
    {post : β → SysTape lib → Prop} (here : guard t (some (.loc e)))
    (able : total → ∃ r w', Answers env faulty t e r w')
    (next : ∀ r w', Answers env faulty t e r w' →
      Wp (soloSem (tapeSem env (sysSem lib faulty))) guard total (f r) (Tape.after t e r w') post) :
    Wp (soloSem (tapeSem env (sysSem lib faulty))) guard total (Prog.bind (Prog.loc (sys e)) f) t
      post :=
  wp_bind (wp_solo_loc (wp_sys here able next))

end Solo

/-! ### Reading

Most calls look at the world without changing it. `Steady` is the invariant of a stretch of the run in
which the program makes only such calls, or sends and receives. -/

/-- Calls that change neither the file system nor the current directory. -/
def Reads : Sys lib.md5.Ctx → Prop
  | .fopen _ mode => mode ≠ .wb
  | .fclose fp => fp.pending = []
  | .zipClose zip => zip = none
  | .chdir _ | .fwrite _ _ _ | .fflush _ | .rename _ _ | .unlink _ | .rmdir _ => False
  | .zipOpen _ | .zipEntryOpen _ _ | .zipEntryFwrite _ _ | .zipEntryClose _ => False
  | .zipExtract _ _ | .crash => False
  | _ => True

/-- Such a call, or the head of a loop, but neither of the two the model added to watch the code. -/
def Peeks : Option (Sys lib.md5.Ctx) → Prop
  | some .protocolNotFollowed => False
  | some (.remaining _) => False
  | some e => Reads e
  | none => True

/-- Such a call, or an operation of the connection. -/
def Calm : Act (Sys lib.md5.Ctx) Schema.Val → Prop
  | .loc e => Reads e
  | _ => True

theorem flushed_nil (w : World) (fp : Stream) (j : Nat) : w.flushed fp [] j = w := by
  simp [World.flushed]

private theorem does_same {w w' : World} {e : Sys lib.md5.Ctx} {r : e.Resp} (reads : Reads e)
    (does : Does lib w e r w') : w' = w := by
  cases e with
  | getcwd | lstat path | stat path | access path mode | statvfs path | fread fp n | md5Final ctx
  | setRcvTimeout seconds => exact does.2
  | scanf | zipCloseWild | protocolNotFollowed | remaining size => exact does
  | fopen path mode =>
      cases mode with
      | wb => exact absurd rfl reads
      | rb => rcases does with ⟨_, _, _, rfl⟩ | ⟨_, _, rfl⟩ <;> rfl
      | rPlusB => rcases does with ⟨_, _, _, rfl⟩ | ⟨_, _, rfl⟩ <;> rfl
  | fgetc fp => rcases does with ⟨_, _, _, rfl⟩ | ⟨_, _, rfl⟩ <;> rfl
  | fseek fp offset => rcases does with ⟨_, _, rfl⟩ | ⟨_, _, rfl⟩ <;> rfl
  | opendir path => rcases does with ⟨_, _, rfl⟩ | ⟨_, _, rfl⟩ <;> rfl
  | fclose fp =>
      have same : w' = w.flushed fp fp.pending fp.pending.length := does
      rw [same, (reads : fp.pending = []), flushed_nil]
  | zipClose zip =>
      cases (reads : zip = none)
      exact does
  | _ => exact reads.elim

private theorem faults_same {w w' : World} {e : Sys lib.md5.Ctx} {r : e.Resp} (reads : Reads e)
    (fault : Faults lib w e r w') : w' = w := by
  cases e with
  | getcwd | lstat path | stat path | access path mode | statvfs path | fgetc fp | fopen path mode
  | fseek fp offset | opendir path | setRcvTimeout seconds => exact fault.2
  | scanf | zipCloseWild | protocolNotFollowed | remaining size | md5Final ctx => exact fault.elim
  | fread fp n =>
      obtain ⟨_, _, _, _, same⟩ := fault
      exact same
  | fclose fp =>
      obtain ⟨j, same⟩ := (fault : ∃ j, w' = w.flushed fp fp.pending j)
      rw [same, (reads : fp.pending = []), flushed_nil]
  | zipClose zip =>
      cases (reads : zip = none)
      exact (fault : False).elim
  | _ => exact reads.elim

theorem reads_same {faulty : Prop} {w w' : World} {e : Sys lib.md5.Ctx} {r : e.Resp}
    (reads : Reads e) (answer : sysSem lib faulty w e r w') : w' = w := by
  rcases answer with does | ⟨_, fault⟩
  · exact does_same reads does
  · exact faults_same reads fault

/-- While the log satisfies `quiet`, the environment keeps `inv`; calm operations leave the log
    quiet. -/
structure Steady (env : SysEnv lib) (quiet : List (SysEvent lib) → Prop) (inv : World → Prop) :
    Prop where
  env_refl : ∀ log w, env log w w
  keeps : ∀ log w w', quiet log → inv w → env log w w' → inv w'
  grows : ∀ log (a : Act (Sys lib.md5.Ctx) Schema.Val) (r : a.Answer Sys.Resp), quiet log →
    Calm a → quiet (⟨a, r⟩ :: log)

theorem Steady.sent {env : SysEnv lib} {quiet : List (SysEvent lib) → Prop} {inv : World → Prop}
    (steady : Steady env quiet inv) {log : List (SysEvent lib)} (calm : quiet log) (k : Schema)
    (v : k.Val) (r : Bool) : quiet (⟨.send k v, r⟩ :: log) :=
  steady.grows log (.send k v) r calm trivial

theorem Steady.received {env : SysEnv lib} {quiet : List (SysEvent lib) → Prop}
    {inv : World → Prop} (steady : Steady env quiet inv) {log : List (SysEvent lib)}
    (calm : quiet log) (k : Schema) (r : Option k.Val) : quiet (⟨.recv k, r⟩ :: log) :=
  steady.grows log (.recv k) r calm trivial

/-- Nobody else changes anything. -/
theorem steady_still (inv : World → Prop) :
    Steady (still : SysEnv lib) (fun _ => True) inv where
  env_refl _ _ := rfl
  keeps _ _ _ _ holds same := same ▸ holds
  grows _ _ _ _ _ := trivial

theorem Reads.alive {e : Sys lib.md5.Ctx} (reads : Reads e) : e ≠ .crash := by
  rintro rfl
  exact reads

section Calls

variable {env : SysEnv lib} {faulty total : Prop} {quiet : List (SysEvent lib) → Prop}
  {inv : World → Prop} {α : Type}

/-- The rule of a reading call in a steady stretch. -/
theorem wp_calm {guard : SysTape lib → Option (Sys lib.md5.Ctx) → Prop}
    (steady : Steady env quiet inv) {t : SysTape lib} (calm : quiet t.log) (holds : inv t.world)
    {e : Sys lib.md5.Ctx} (reads : Reads e) {f : e.Resp → L lib α} {post : α → SysTape lib → Prop}
    (here : guard t (some e))
    (next : ∀ r t', quiet t'.log → inv t'.world → sysSem lib faulty t'.world e r t'.world →
      Wp (tapeSem env (sysSem lib faulty)) guard total (f r) t' post) :
    Wp (tapeSem env (sysSem lib faulty)) guard total (Prog.bind (sys e) f) t post := by
  refine wp_alive steady.env_refl reads.alive here ?_
  rintro r w' ⟨w, changed, answer⟩
  have kept := steady.keeps _ _ _ calm holds changed
  cases reads_same reads answer
  exact next r _ (steady.grows _ (.loc e) r calm reads) kept answer

/-- The same in a communicating function. -/
theorem wp_calm_call {lossy : Prop} {P' : Type} {proto : Protocol P' Schema.Val} {side : Side}
    {guard : Endpoint (SysTape lib) P' → Option (Act (Sys lib.md5.Ctx) Schema.Val) → Prop}
    (steady : Steady env quiet inv) {t : SysTape lib} (calm : quiet t.log) (holds : inv t.world)
    {e : Sys lib.md5.Ctx} (reads : Reads e) {f : e.Resp → P lib α} {p : P'} {b : Bool}
    {post : α → Endpoint (SysTape lib) P' → Prop} (here : guard ⟨t, p, b⟩ (some (.loc e)))
    (next : ∀ r t', quiet t'.log → inv t'.world → sysSem lib faulty t'.world e r t'.world →
      Wp (endpointSem proto side lossy (tapeSem env (sysSem lib faulty))) guard total (f r)
        ⟨t', p, b⟩ post) :
    Wp (endpointSem proto side lossy (tapeSem env (sysSem lib faulty))) guard total
      (Prog.bind (Prog.loc (sys e)) f) ⟨t, p, b⟩ post := by
  apply wp_loc_bind
  rw [← Prog.bind_ret (sys e)]
  refine wp_calm steady calm holds reads here (fun r t' calm holds answer => ?_)
  exact wp_ret.mpr (next r t' calm holds answer)

end Calls

section Hash

variable {env : SysEnv lib} {faulty total : Prop} {quiet : List (SysEvent lib) → Prop}
  {inv : World → Prop} {guard : SysTape lib → Option (Sys lib.md5.Ctx) → Prop}

/-- The loop of the hash: the context has absorbed what was read so far, and the rest of the file is
    still to come. -/
structure Hashing (i : Nat) (bs : List UInt8) (st : lib.md5.Ctx × Stream × Nat) : Prop where
  absorbed : ∃ chunks : List (List UInt8), st.1 = chunks.foldl lib.md5.update lib.md5.init ∧
    chunks.flatten = bs.take st.2.1.pos
  ino : st.2.1.ino = i
  pending : st.2.1.pending = []
  pos : st.2.1.pos + st.2.2 = bs.length

/-- What the loop of the hash leaves. -/
def Hashed (quiet : List (SysEvent lib) → Prop) (inv : World → Prop) (faulty : Prop)
    (bs : List UInt8) (out : Stream × Option lib.md5.Ctx) (t : SysTape lib) : Prop :=
  (quiet t.log ∧ inv t.world) ∧ out.1.pending = [] ∧
    (∀ ctx, out.2 = some ctx → lib.md5.final ctx = lib.md5.digest bs) ∧ (¬ faulty → out.2 ≠ none)

theorem md5Round_wp (steady : Steady env quiet inv) {i : Nat} {bs : List UInt8}
    (content : ∀ w, inv w → w.fs.data i = bs)
    (allowed : ∀ t e, quiet t.log → inv t.world → Peeks e → (∀ ctx, e ≠ some (.md5Final ctx)) →
      guard t e)
    {st : lib.md5.Ctx × Stream × Nat} {t : SysTape lib} (calm : quiet t.log) (holds : inv t.world)
    (hashing : Hashing i bs st) :
    Wp (tapeSem env (sysSem lib faulty)) guard total (md5Round st) t
      (LoopPost total (fun st t => (quiet t.log ∧ inv t.world) ∧ Hashing i bs st)
        (fun st _ => st.2.2) st.2.2 (Hashed quiet inv faulty bs)) := by
  obtain ⟨ctx, fp, size⟩ := st
  obtain ⟨⟨chunks, hctx, read⟩, ino, pending, pos⟩ := hashing
  simp only at hctx read ino pending pos
  unfold md5Round
  simp only [Prog.bind_eq, Prog.pure_eq]
  by_cases zero : size = 0
  · rw [if_pos zero, wp_ret]
    refine ⟨⟨calm, holds⟩, pending, ?_, by simp⟩
    rintro ctx' ⟨⟩
    rw [hctx, lib.md5.final_foldl, read, List.take_of_length_le (by omega)]
  · rw [if_neg zero]
    refine wp_calm steady calm holds (e := .fread _ _) trivial
      (allowed _ _ calm holds trivial (by simp)) (fun r t' calm' holds' answer => ?_)
    have positive : 0 < BUFFER_SIZE := by decide
    rcases answer with ⟨chunk, _⟩ | ⟨fault, bytes, short, _, rfl, _⟩
    · -- the whole chunk was read
      rw [ino, content _ holds'] at chunk
      have full : ((bs.drop fp.pos).take (min BUFFER_SIZE size)).length = min BUFFER_SIZE size := by
        rw [List.length_take, List.length_drop]
        omega
      rw [full] at chunk
      subst chunk
      rw [if_neg (by simp only [full]; simp)]
      refine wp_ret.mpr ⟨⟨⟨calm', holds'⟩,
        ⟨⟨chunks ++ [(bs.drop fp.pos).take (min BUFFER_SIZE size)], ?_, ?_⟩, rfl, pending, ?_⟩⟩,
        fun _ => ?_⟩
      · rw [List.foldl_append, ← hctx]
        rfl
      · rw [List.flatten_append, read, List.flatten_singleton, ← List.take_add]
      · simp only [full]
        omega
      · simp only [full]
        omega
    · rw [if_pos ⟨Nat.ne_of_lt short, rfl⟩]
      refine wp_ret.mpr ⟨⟨calm', holds'⟩, pending, ?_, fun sound => absurd fault sound⟩
      rintro ctx' ⟨⟩

/-- The loop of the hash absorbs the whole file. -/
theorem md5Loop_wp (steady : Steady env quiet inv) {i : Nat} {bs : List UInt8}
    (content : ∀ w, inv w → w.fs.data i = bs)
    (allowed : ∀ t e, quiet t.log → inv t.world → Peeks e → (∀ ctx, e ≠ some (.md5Final ctx)) →
      guard t e)
    {t : SysTape lib} (calm : quiet t.log) (holds : inv t.world) :
    Wp (tapeSem env (sysSem lib faulty)) guard total
      (Prog.iterate md5Round (lib.md5.init, .opened i, bs.length)) t
      (Hashed quiet inv faulty bs) := by
  refine wp_iterate (fun st t => (quiet t.log ∧ inv t.world) ∧ Hashing i bs st) (fun st _ => st.2.2)
    ?_ ?_ ?_
  · refine ⟨⟨calm, holds⟩, ⟨[], rfl, ?_⟩, rfl, rfl, ?_⟩
    · simp [Stream.opened]
    · simp [Stream.opened]
  · intro st t hyp
    exact allowed _ _ hyp.1.1 hyp.1.2 trivial (by simp)
  · intro st t hyp
    exact md5Round_wp steady content allowed hyp.1.1 hyp.1.2 hyp.2

/-- The hash of a file, as the functions that use it see it: what was computed is the digest of what
    the file holds, and something was computed unless a call failed. -/
def Digested (quiet : List (SysEvent lib) → Prop) (inv : World → Prop) (faulty : Prop)
    (bs : List UInt8) (r : Option Hash) (t : SysTape lib) : Prop :=
  (quiet t.log ∧ inv t.world) ∧ (∀ h, r = some h → h = lib.md5.digest bs) ∧ (¬ faulty → r ≠ none)

/-- Close the stream of a hash computation. -/
theorem md5Close_wp {α : Type} (steady : Steady env quiet inv) {fp : Stream} (closed : fp.pending = [])
    {t : SysTape lib} (calm : quiet t.log) (holds : inv t.world)
    (allowed : guard t (some (.fclose fp))) {value : α} {post : α → SysTape lib → Prop}
    (done : ∀ t', quiet t'.log → inv t'.world → post value t') :
    Wp (tapeSem env (sysSem lib faulty)) guard total
      (Prog.bind (fclose fp) (fun _ => .ret value)) t post :=
  wp_calm steady calm holds (e := .fclose fp) closed allowed
    (fun _ t' calm holds _ => wp_ret.mpr (done t' calm holds))

section File

variable {path : CStr} {l : Loc} {i : Nat} {bs : List UInt8}
  (steady : Steady env quiet inv)
  (file : ∀ w, inv w → w.target path = l ∧ w.fs.node l = some (.file i) ∧ w.fs.data i = bs)
  (allowed : ∀ t e, quiet t.log → inv t.world → Peeks e →
    (∀ ctx, e = some (.md5Final ctx) → lib.md5.final ctx = lib.md5.digest bs) → guard t e)

include steady file allowed

theorem md5Opened_wp {t : SysTape lib} (calm : quiet t.log) (holds : inv t.world) :
    Wp (tapeSem env (sysSem lib faulty)) guard total (md5Opened path (.opened i)) t
      (Digested quiet inv faulty bs) := by
  unfold md5Opened
  simp only [Prog.bind_eq, Prog.pure_eq]
  refine wp_calm steady calm holds (e := .stat path) trivial
    (allowed _ _ calm holds trivial (by simp)) (fun r t' calm holds answer => ?_)
  obtain ⟨target, node, data⟩ := file _ holds
  have known : r = some ⟨.reg, bs.length⟩ ∨ (faulty ∧ r = none) := by
    rcases answer with ⟨found, _⟩ | ⟨fault, none_, _⟩
    · cases r with
      | none =>
          rw [StatOf, target, node] at found
          cases found
      | some st =>
          simp only [StatOf, target, node, data] at found
          exact Or.inl (congrArg some found)
    · exact Or.inr ⟨fault, none_⟩
  rcases known with rfl | ⟨fault, rfl⟩
  · have quiet_guard : ∀ t e, quiet t.log → inv t.world → Peeks e →
        (∀ ctx, e ≠ some (.md5Final ctx)) → guard t e :=
      fun t e calm holds peeks other =>
        allowed t e calm holds peeks (fun ctx same => absurd same (other ctx))
    refine wp_bind (wp_mono
      (md5Loop_wp steady (fun w h => (file w h).2.2) quiet_guard calm holds) ?_)
    rintro ⟨fp, ctx⟩ t' ⟨⟨calm, holds⟩, closed, digest, sound⟩
    cases ctx with
    | none =>
        exact md5Close_wp steady closed calm holds (allowed _ _ calm holds closed (by simp))
          (fun t' calm holds => ⟨⟨calm, holds⟩, by simp, fun ok => absurd rfl (sound ok)⟩)
    | some ctx =>
        have final := digest ctx rfl
        refine wp_calm steady calm holds (e := .md5Final ctx) trivial
          (allowed _ _ calm holds trivial ?_) (fun r t' calm holds answer => ?_)
        · rintro ctx' ⟨⟩
          exact final
        · have value : r = lib.md5.digest bs := by
            rcases answer with ⟨rfl, _⟩ | ⟨_, impossible⟩
            · exact final
            · exact impossible.elim
          refine md5Close_wp steady closed calm holds (allowed _ _ calm holds closed (by simp))
            (fun t' calm holds => ⟨⟨calm, holds⟩, ?_, by simp⟩)
          rintro h ⟨⟩
          exact value
  · exact wp_ret.mpr ⟨⟨calm, holds⟩, by simp, fun sound => absurd fault sound⟩

/-- `filerail_md5` computes the digest of the file, whatever its length. -/
theorem md5_wp {t : SysTape lib} (calm : quiet t.log) (holds : inv t.world) :
    Wp (tapeSem env (sysSem lib faulty)) guard total (md5 path) t
      (Digested quiet inv faulty bs) := by
  unfold md5
  simp only [Prog.bind_eq, Prog.pure_eq]
  refine wp_calm steady calm holds (e := .fopen path .rb) (by simp [Reads])
    (allowed _ _ calm holds (by simp [Peeks, Reads]) (by simp)) (fun r t' calm holds answer => ?_)
  obtain ⟨target, node, _⟩ := file _ holds
  rcases answer with does | ⟨fault, rfl, _⟩
  · have opened : r = some (.opened i) := by
      rcases does with ⟨j, here, rfl, _⟩ | ⟨_, other, _⟩
      · rw [target, node] at here
        cases here
        rfl
      · exact absurd (target.symm ▸ node) (other i)
    subst opened
    exact md5Opened_wp steady file allowed calm holds
  · exact wp_ret.mpr ⟨⟨calm, holds⟩, by simp, fun sound => absurd fault sound⟩

end File

end Hash

end Filerail
