/-
Module: Filerail.Proofs.Undoing
Layer: Proofs
Purpose: What the sending handler leaves on the machine of the sender, when calls fail and the peer may
  do anything. It changes the directory and creates an archive, and only its longest way out undoes
  both. A run that returns leaves everything as it was if each of the two has not happened, has been
  undone or was of no account; and it does not otherwise, unless an old file of the name of the archive
  is overwritten with what was in it.
Imports: Filerail.Core.Machine, Filerail.Proofs.Archive, Filerail.Proofs.Folder, Filerail.Proofs.Packing
Main exports: Deeds, deeds, Offering, Offering.Restored, Offering.Undone, undone_restores
-/
import Filerail.Core.Machine
import Filerail.Proofs.Archive
import Filerail.Proofs.Folder
import Filerail.Proofs.Packing

namespace Filerail

open FileStore ProgramLogic

variable {lib : Lib}

/-! ### What a run has done -/

/-- How often the directory has been changed, whether an archive has been opened, and whether a file
    has been removed. -/
structure Deeds where
  moves : Nat
  opened : Bool
  removed : Bool

/-- One more operation. -/
def Deeds.enter (d : Deeds) : SysEvent lib → Deeds
  | ⟨.loc (.chdir _), moved⟩ =>
      let moved : Bool := moved
      { d with moves := d.moves + moved.toNat }
  | ⟨.loc (.zipOpen _), opened⟩ =>
      let opened : Option Zip := opened
      { d with opened := d.opened || opened.isSome }
  | ⟨.loc (.unlink _), removed⟩ =>
      let removed : Bool := removed
      { d with removed := d.removed || removed }
  | _ => d

def deeds : List (SysEvent lib) → Deeds
  | [] => ⟨0, false, false⟩
  | event :: earlier => (deeds earlier).enter event

theorem deeds_calm {a : Act (Sys lib.md5.Ctx) Schema.Val} (calm : Calm a) (r : a.Answer Sys.Resp)
    (log : List (SysEvent lib)) : deeds (⟨a, r⟩ :: log) = deeds log := by
  cases a with
  | loc e =>
      cases e with
      | chdir path => exact calm.elim
      | zipOpen path => exact calm.elim
      | unlink path => exact calm.elim
      | _ => rfl
  | send k v => rfl
  | recv k => rfl

theorem deeds_zips {i : Nat} {e : Sys lib.md5.Ctx} (zips : Zips i e) (r : e.Resp)
    (log : List (SysEvent lib)) : deeds (⟨.loc e, r⟩ :: log) = deeds log := by
  rcases zips with reads | adds
  · exact deeds_calm (a := .loc e) reads r log
  · cases e with
    | chdir path => exact adds.elim
    | zipOpen path => exact adds.elim
    | unlink path => exact adds.elim
    | _ => rfl

/-- While a process only reads, nothing is done. -/
theorem steady_deeds (d : Deeds) (w : World) :
    Steady (still : SysEnv lib) (fun log => deeds log = d) (· = w) where
  env_refl _ _ := rfl
  keeps _ _ _ _ here same := same ▸ here
  grows log _ r same calm := (deeds_calm calm r log).trans same

/-! ### Stretches that only read -/

section Reading

variable {env : SysEnv lib} {faulty : Prop} {quiet : List (SysEvent lib) → Prop}
  {inv : World → Prop} {α : Type} (steady : Steady env quiet inv) {t : SysTape lib}

include steady

/-- The rule of a reading call in a function whose peer may do anything. -/
theorem wp_calm_solo (calm : quiet t.log) (holds : inv t.world) {e : Sys lib.md5.Ctx}
    (reads : Reads e) {f : e.Resp → P lib α} {post : α → SysTape lib → Prop}
    (next : ∀ r t', quiet t'.log → inv t'.world → sysSem lib faulty t'.world e r t'.world →
      Wp (soloSem (tapeSem env (sysSem lib faulty))) (fun _ _ => True) False (f r) t' post) :
    Wp (soloSem (tapeSem env (sysSem lib faulty))) (fun _ _ => True) False
      (Prog.bind (Prog.loc (sys e)) f) t post := by
  apply wp_bind
  apply wp_solo_loc
  rw [← Prog.bind_ret (sys e)]
  apply wp_calm steady calm holds reads trivial
  intro r t' calm holds answer
  exact wp_ret.mpr (next r t' calm holds answer)

/-- The rule of a send. -/
theorem wp_calm_send (calm : quiet t.log) (holds : inv t.world) {k : Schema} {v : k.Val}
    {f : Bool → P lib α} {post : α → SysTape lib → Prop}
    (next : ∀ r t', quiet t'.log → inv t'.world →
      Wp (soloSem (tapeSem env (sysSem lib faulty))) (fun _ _ => True) False (f r) t' post) :
    Wp (soloSem (tapeSem env (sysSem lib faulty))) (fun _ _ => True) False
      ((Prog.perform (E := Act (Sys lib.md5.Ctx) Schema.Val) (R := Act.Answer Sys.Resp)
        (.send k v)).bind f) t post := by
  apply wp_solo_send trivial
  intro r
  exact next r (t.record (.send k v) r) (steady.sent calm k v r) holds

/-- The rule of a receive. -/
theorem wp_calm_recv (calm : quiet t.log) (holds : inv t.world) {k : Schema}
    {f : Option k.Val → P lib α} {post : α → SysTape lib → Prop}
    (next : ∀ r t', quiet t'.log → inv t'.world →
      Wp (soloSem (tapeSem env (sysSem lib faulty))) (fun _ _ => True) False (f r) t' post) :
    Wp (soloSem (tapeSem env (sysSem lib faulty))) (fun _ _ => True) False
      ((Prog.perform (E := Act (Sys lib.md5.Ctx) Schema.Val) (R := Act.Answer Sys.Resp)
        (.recv k)).bind f) t post := by
  apply wp_solo_recv trivial
  intro r
  exact next r (t.record (.recv k) r) (steady.received calm k r) holds

/-- A function all of whose operations are calm. -/
theorem wp_calm_calls (calm : quiet t.log) (holds : inv t.world) {p : P lib α} (calls : p.Calls Calm) :
    Wp (soloSem (tapeSem env (sysSem lib faulty))) (fun _ _ => True) False p t
      (fun _ t' => quiet t'.log ∧ inv t'.world) := by
  apply wp_calls calls (fun t' : SysTape lib => quiet t'.log ∧ inv t'.world) ⟨calm, holds⟩
  · rintro t' a r t'' may ⟨calm, holds⟩ answer
    have grown := solo_logs answer
    constructor
    · rw [grown]
      exact steady.grows _ _ _ calm may
    · cases a with
      | loc e =>
          obtain ⟨w, w', changed, answer, rfl⟩ := answer
          have kept := steady.keeps _ _ _ calm holds changed
          cases reads_same may answer
          exact kept
      | send k v =>
          obtain rfl : t'' = _ := answer
          exact holds
      | recv k =>
          obtain rfl : t'' = _ := answer
          exact holds
  · intro _ _ _ _
    trivial
  · intro _ _
    trivial

/-- The end of a transfer, when what is still open has nothing pending. -/
theorem transferCleanUp_steady (calm : quiet t.log) (holds : inv t.world) {fp : Option Stream}
    (closed : ∀ fp', fp = some fp' → fp'.pending = []) (status : Int) :
    Wp (soloSem (tapeSem env (sysSem lib faulty))) (fun _ _ => True) False
      (transferCleanUp fp none status).loc t (fun _ t' => quiet t'.log ∧ inv t'.world) := by
  apply wp_solo_loc
  apply wp_mono (transferCleanUp_calm_wp steady (fun _ _ _ => trivial) calm holds closed status)
  rintro r t' ⟨kept, _⟩
  exact kept

/-- The head of the packet loop. -/
def Clean (quiet : List (SysEvent lib) → Prop) (inv : World → Prop) (st : Stream × UInt64)
    (t : SysTape lib) : Prop :=
  quiet t.log ∧ inv t.world ∧ st.1.pending = []

theorem sendRound_steady {K : AESKeys} {st : Stream × UInt64} (clean : Clean quiet inv st t) :
    Wp (soloSem (tapeSem env (sysSem lib faulty))) (fun _ _ => True) False (sendRound K st) t
      (LoopPost False (Clean quiet inv) (fun _ _ => 0) 0
        (fun out t' => quiet t'.log ∧ inv t'.world ∧ out.1.pending = [])) := by
  obtain ⟨fp, size⟩ := st
  obtain ⟨calm, holds, closed⟩ := clean
  unfold sendRound
  simp only [Prog.bind_eq, Prog.pure_eq]
  apply wp_calm_solo steady calm holds (e := .remaining size) trivial
  intro _ t₁ calm holds _
  split
  · exact wp_ret.mpr ⟨calm, holds, closed⟩
  · apply wp_calm_solo steady calm holds (e := .fread fp (min BUFFER_SIZE size.toNat)) trivial
    rintro ⟨input, fp'⟩ t₂ calm holds answer
    have closed' : fp'.pending = [] := by
      rcases answer with ⟨same, _⟩ | ⟨_, _, _, _, same, _⟩
      · cases same
        exact closed
      · cases same
        exact closed
    dsimp only
    split
    · exact wp_ret.mpr ⟨calm, holds, closed'⟩
    · cases encrypt lib (pad BUFFER_SIZE input) K with
      | none => exact wp_ret.mpr ⟨calm, holds, closed'⟩
      | some out =>
          apply wp_calm_send steady calm holds
          intro sent t₃ calm holds
          cases sent with
          | true => exact wp_ret.mpr ⟨⟨calm, holds, closed'⟩, False.elim⟩
          | false => exact wp_ret.mpr ⟨calm, holds, closed'⟩

/-- Whatever fails, `filerail_sendfile` only reads. -/
theorem sendfile_steady (calm : quiet t.log) (holds : inv t.world) (zip : CStr) (K : AESKeys)
    (k : UInt64) :
    Wp (soloSem (tapeSem env (sysSem lib faulty))) (fun _ _ => True) False (sendfile zip K k) t
      (fun _ t' => quiet t'.log ∧ inv t'.world) := by
  unfold sendfile
  simp only [Prog.bind_eq]
  apply wp_calm_solo steady calm holds (e := .fopen zip .rb) (by simp [Reads])
  intro r t₁ calm holds answer
  cases r with
  | none => exact transferCleanUp_steady steady calm holds (by simp) _
  | some fp =>
      have closed : fp.pending = [] := by
        rcases answer with (⟨i, _, same, _⟩ | ⟨none_opened, _⟩) | ⟨_, none_opened, _⟩
        · cases same
          rfl
        · cases none_opened
        · cases none_opened
      have closes : ∀ fp', some fp = some fp' → fp'.pending = [] := by
        rintro _ ⟨⟩
        exact closed
      apply wp_calm_solo steady calm holds (e := .stat zip) trivial
      intro r t₂ calm holds _
      cases r with
      | none => exact transferCleanUp_steady steady calm holds closes _
      | some stat_path =>
          apply wp_calm_send steady calm holds
          intro sent t₃ calm holds
          cases sent with
          | false => exact transferCleanUp_steady steady calm holds closes _
          | true =>
              rw [if_pos rfl]
              apply wp_calm_solo steady calm holds (e := .fseek fp k) trivial
              intro r t₃ calm holds answer
              cases r with
              | none => exact transferCleanUp_steady steady calm holds closes _
              | some fp' =>
                  have closed' : fp'.pending = [] := by
                    rcases answer with (⟨_, same, _⟩ | ⟨_, failed, _⟩) | ⟨_, failed, _⟩
                    · cases same
                      exact closed
                    · cases failed
                    · cases failed
                  have closes' : ∀ fp'', some fp' = some fp'' → fp''.pending = [] := by
                    rintro _ ⟨⟩
                    exact closed'
                  apply wp_calm_solo steady calm holds (e := .setRcvTimeout MAX_IO_TIME_OUT) trivial
                  intro ok t₄ calm holds _
                  cases ok with
                  | false => exact transferCleanUp_steady steady calm holds closes' _
                  | true =>
                      rw [if_pos rfl]
                      have rounds : Wp (soloSem (tapeSem env (sysSem lib faulty))) (fun _ _ => True)
                          False (Prog.iterate (sendRound K) (fp', .ofNat stat_path.st_size - k)) t₄
                          (fun out t' => quiet t'.log ∧ inv t'.world ∧ out.1.pending = []) := by
                        apply wp_iterate (Clean quiet inv) (fun _ _ => 0) ⟨calm, holds, closed'⟩
                        · intro _ _ _
                          trivial
                        · intro st t clean
                          exact sendRound_steady steady clean
                      apply wp_bind
                      apply wp_mono rounds
                      rintro ⟨fp'', ok⟩ t₅ ⟨calm, holds, closed''⟩
                      apply transferCleanUp_steady steady calm holds
                      rintro _ ⟨⟩
                      exact closed''

end Reading

/-! ### What is to be undone -/

/-- A call of `filerail_sendfile_handler`, in a directory that is there. -/
structure Offering where
  is_server : Bool
  resource_dir : CStr
  resource_name : CStr
  stat_resource : Stat
  K : AESKeys
  world : World
  home : world.fs.node world.cwd = some .dir

namespace Offering

variable (v : Offering)

/-- The call. -/
def send (lib : Lib) : P lib Int :=
  sendfileHandler v.is_server v.resource_dir v.resource_name v.stat_resource v.K

/-- The name of the archive. -/
def zip : CStr :=
  v.resource_name ++ dotZip

/-- The process in the directory of the resource. -/
def inside : World :=
  { v.world with cwd := v.world.target v.resource_dir }

/-- Where the archive is. -/
def place : Loc :=
  v.inside.loc v.zip

/-- Nothing has the name of the archive. -/
def Free : Prop :=
  v.world.fs.node v.place = none

/-- The process is where it was, and so are all its files. -/
def Restored (w : World) : Prop :=
  w.cwd = v.world.cwd ∧
    ∀ l, w.fs.node l = v.world.fs.node l ∧ w.fs.fileAt l = v.world.fs.fileAt l

/-- The change of the directory has not happened, or been undone, or was none; and the archive has not
    been opened, or it had a free name and has been removed. -/
def Undone (d : Deeds) : Prop :=
  (d.moves = 0 ∨ d.moves = 2 ∨ v.world.target v.resource_dir = v.world.cwd) ∧
    (d.opened = false ∨ (v.Free ∧ d.removed = true))

/-- An old file of the name of the archive has been written over. -/
def Overwritten (d : Deeds) : Prop :=
  d.opened = true ∧ d.removed = false ∧ ¬ v.Free

/-- The archive is the file `i`, a new one or an old one of that name, and something has been written
    to it. -/
def Made (i : Nat) (w : World) : Prop :=
  ∃ fs, ((v.world.fs.node (v.inside.target v.zip) = some (.file i) ∧ fs = v.world.fs) ∨
    v.world.fs.create (v.inside.target v.zip) = some (i, fs)) ∧
      Filled i { v.inside with fs := fs } w

variable {v}

namespace Made

variable {i : Nat} {w : World}

theorem cwd (made : v.Made i w) : w.cwd = v.world.target v.resource_dir := by
  obtain ⟨fs, _, written, rfl⟩ := made
  rfl

theorem loc (made : v.Made i w) : w.loc v.zip = v.place := by
  rw [World.loc, made.cwd]
  rfl

/-- What was there is there. -/
theorem keeps (made : v.Made i w) {l : Loc} {x : Node Name} (here : v.world.fs.node l = some x) :
    w.fs.node l = some x := by
  obtain ⟨fs, opened, filled⟩ := made
  rw [filled.node]
  rcases opened with ⟨_, rfl⟩ | made
  · exact here
  · exact Store.create_keeps made here

/-- The name of the archive is that of a file or of a symbolic link. -/
theorem named (made : v.Made i w) :
    ∃ x, w.fs.node v.place = some x ∧ ((∃ j, x = .file j) ∨ ∃ l', x = .link l') := by
  by_cases link : ∃ l', v.world.fs.node v.place = some (.link l')
  · obtain ⟨l', link⟩ := link
    exact ⟨_, made.keeps link, Or.inr ⟨l', rfl⟩⟩
  · have target : v.inside.target v.zip = v.place := by
      apply Store.follow_eq_self
      intro l' here
      exact link ⟨l', here⟩
    obtain ⟨fs, opened, filled⟩ := made
    rw [filled.node]
    rw [target] at opened
    rcases opened with ⟨file, rfl⟩ | made
    · exact ⟨_, file, Or.inl ⟨i, rfl⟩⟩
    · exact ⟨_, (Store.create_spec made).1, Or.inl ⟨i, rfl⟩⟩

/-- The name leads to the archive. -/
theorem file (made : v.Made i w) : w.target v.zip = v.inside.target v.zip ∧
    w.fs.node (v.inside.target v.zip) = some (.file i) := by
  obtain ⟨fs, opened, filled⟩ := made
  rw [filled.target, filled.node]
  rcases opened with ⟨file, rfl⟩ | made
  · exact ⟨rfl, file⟩
  · exact ⟨Store.follow_create made _ _, (Store.create_spec made).1⟩

/-- More is written. -/
theorem zips (made : v.Made i w) {e : Sys lib.md5.Ctx} (zips : Zips i e) {r : e.Resp} {w' : World}
    {faulty : Prop} (answer : sysSem lib faulty w e r w') : v.Made i w' := by
  obtain ⟨fs, opened, filled⟩ := made
  obtain ⟨written, rfl⟩ := zips.setData answer
  exact ⟨fs, opened, filled.write written⟩

/-- If the name was free, the removal of the archive leaves all as it was. -/
theorem unlinked (made : v.Made i w) (free : v.Free) {fs' : Store Name UInt8}
    (gone : w.fs.unlink v.place = some fs') (l : Loc) :
    fs'.node l = v.world.fs.node l ∧ fs'.fileAt l = v.world.fs.fileAt l := by
  have target : v.inside.target v.zip = v.place := by
    apply Store.follow_eq_self
    intro l' here
    rw [show v.inside.fs.node (v.inside.loc v.zip) = none from free] at here
    cases here
  obtain ⟨absent, others⟩ := Store.unlink_spec gone
  by_cases same : l = v.place
  · rw [same, absent, Store.fileAt_of_absent absent, Store.fileAt_of_absent free]
    exact ⟨free.symm, rfl⟩
  · obtain ⟨node, content⟩ := others l same
    obtain ⟨fs, opened, written, rfl⟩ := made
    rw [target] at opened
    rcases opened with ⟨file, rfl⟩ | made
    · rw [free] at file
      cases file
    · obtain ⟨before, before_content⟩ := (Store.create_spec made).2.2 l same
      have file := (Store.create_spec made).1
      rw [node, content]
      refine ⟨before, ?_⟩
      exact (Store.fileAt_setData_ne file same written).trans before_content

end Made

/-- What a run has done, and what it has come to. -/
inductive Holds (v : Offering) : Deeds → World → Prop where
  | home : Holds v ⟨0, false, false⟩ v.world
  | entered : Holds v ⟨1, false, false⟩ v.inside
  | zipped {i : Nat} {w : World} (made : v.Made i w) : Holds v ⟨1, true, false⟩ w
  | removed {i : Nat} {w : World} {fs : Store Name UInt8} (made : v.Made i w)
      (gone : w.fs.unlink v.place = some fs) : Holds v ⟨1, true, true⟩ { w with fs := fs }
  | back {i : Nat} {w : World} {fs : Store Name UInt8} (made : v.Made i w)
      (gone : w.fs.unlink v.place = some fs) : Holds v ⟨2, true, true⟩ ⟨fs, v.world.cwd⟩

namespace Holds

variable {d : Deeds} {w : World}

/-- What has been undone is as it was. -/
theorem restored (holds : v.Holds d w) (undone : v.Undone d) : v.Restored w := by
  obtain ⟨moves, cleaned⟩ := undone
  cases holds with
  | home => exact ⟨rfl, fun l => ⟨rfl, rfl⟩⟩
  | entered => 
      have there : v.world.target v.resource_dir = v.world.cwd := by simpa using moves
      exact ⟨there, fun l => ⟨rfl, rfl⟩⟩
  | zipped made => simp at cleaned
  | removed made gone =>
      have there : v.world.target v.resource_dir = v.world.cwd := by simpa using moves
      have free : v.Free := by simpa using cleaned
      exact ⟨made.cwd.trans there, made.unlinked free gone⟩
  | back made gone =>
      have free : v.Free := by simpa using cleaned
      exact ⟨rfl, made.unlinked free gone⟩

/-- What is as it was has been undone, unless an old file has been written over. -/
theorem undone (holds : v.Holds d w) (restored : v.Restored w) : v.Undone d ∨ v.Overwritten d := by
  obtain ⟨cwd, same⟩ := restored
  cases holds with
  | home => exact Or.inl ⟨Or.inl rfl, Or.inl rfl⟩
  | entered => exact Or.inl ⟨Or.inr (Or.inr cwd), Or.inl rfl⟩
  | zipped made =>
      refine Or.inr ⟨rfl, rfl, ?_⟩
      intro free
      obtain ⟨x, named, _⟩ := made.named
      rw [(same v.place).1, free] at named
      cases named
  | removed made gone =>
      have there : v.world.target v.resource_dir = v.world.cwd := made.cwd.symm.trans cwd
      have free : v.Free := (same v.place).1.symm.trans (Store.unlink_spec gone).1
      exact Or.inl ⟨Or.inr (Or.inr there), Or.inr ⟨free, rfl⟩⟩
  | back made gone =>
      have free : v.Free := (same v.place).1.symm.trans (Store.unlink_spec gone).1
      exact Or.inl ⟨Or.inr (Or.inl rfl), Or.inr ⟨free, rfl⟩⟩

end Holds

/-! ### The handler -/

section Handler

variable {t : SysTape lib}

/-- Where a run is. -/
def At (v : Offering) (t : SysTape lib) : Prop :=
  v.Holds (deeds t.log) t.world

/-- The archive is there. -/
structure Zipped (v : Offering) (i : Nat) (t : SysTape lib) : Prop where
  deeds : deeds t.log = ⟨1, true, false⟩
  made : v.Made i t.world

theorem Zipped.at {i : Nat} (zipped : v.Zipped i t) : v.At t := by
  unfold At
  rw [zipped.deeds]
  exact .zipped zipped.made

theorem zipped_endures (i : Nat) : Endures (still : SysEnv lib) True i (v.Zipped i) := by
  intro t e r w' zipped zips answer
  obtain ⟨w, same, answer⟩ := answer
  obtain rfl : t.world = w := same
  constructor
  · exact (deeds_zips zips r t.log).trans zipped.deeds
  · exact zipped.made.zips zips answer

/-- The archive is opened. -/
theorem zipOpen_zipped {z : Zip} {w' : World} (done : deeds t.log = ⟨1, false, false⟩)
    (here : t.world = v.inside) (answer : Answers still True t (.zipOpen v.zip) (some z) w') :
    v.Zipped z.ino (Tape.after t (.zipOpen v.zip) (some z) w') := by
  obtain ⟨w, same, answer⟩ := answer
  obtain rfl : t.world = w := same
  constructor
  · show (deeds t.log).enter _ = _
    rw [done]
    rfl
  · rw [here] at answer
    rcases answer with (⟨i, file, same, rfl⟩ | ⟨i, fs', made, same, rfl⟩ | ⟨no, _⟩) | ⟨_, no, _⟩
    · cases same
      exact ⟨_, Or.inl ⟨file, rfl⟩, [], rfl⟩
    · cases same
      exact ⟨fs', Or.inr made, .refl _ _⟩
    · cases no
    · cases no

/-- What the filling of the archive leaves. -/
def Filling (v : Offering) (out : Option Zip × Bool) (t : SysTape lib) : Prop :=
  (out = (none, false) ∧ v.At t) ∨ ∃ z, out.1 = some z ∧ v.Zipped z.ino t

theorem zipResource_filling (done : deeds t.log = ⟨1, false, false⟩) (here : t.world = v.inside) :
    Wp (tapeSem still (sysSem lib True)) (fun _ _ => True) False
      (zipResource v.zip v.resource_name v.stat_resource) t (Filling v) := by
  unfold zipResource
  simp only [Prog.bind_eq, Prog.pure_eq]
  apply wp_sys_bind trivial False.elim
  intro r w' answer
  cases r with
  | none =>
      apply wp_ret.mpr
      refine Or.inl ⟨rfl, ?_⟩
      have same : w' = v.inside := by
        obtain ⟨w, same, answer⟩ := answer
        obtain rfl : t.world = w := same
        rcases answer with (⟨_, _, no, _⟩ | ⟨_, _, _, no, _⟩ | ⟨_, _, _, same⟩) | ⟨_, _, same⟩
        · cases no
        · cases no
        · exact same.trans here
        · exact same.trans here
      have nothing : deeds (Tape.after t (.zipOpen v.zip) none w').log = ⟨1, false, false⟩ := by
        show (deeds t.log).enter _ = _
        rw [done]
        rfl
      unfold At
      rw [nothing]
      subst same
      exact .entered
  | some z =>
      have zipped := zipOpen_zipped done here answer
      apply wp_guard_mono (wp_mono (zipOpened_wp (zipped_endures z.ino) zipped rfl _ _) _)
      · intro _ _ _
        trivial
      · rintro ⟨_, ok⟩ t' ⟨z', rfl, ino, zipped⟩
        refine Or.inr ⟨z', rfl, ?_⟩
        rw [ino]
        exact zipped

/-- The archive is removed, or it is not. -/
theorem rm_zipped {i : Nat} (zipped : v.Zipped i t) :
    Wp (tapeSem still (sysSem lib True)) (fun _ _ => True) False (rm v.zip) t
      (fun gone t' => (gone = false ∧ v.At t') ∨ (gone = true ∧
        deeds t'.log = ⟨1, true, true⟩ ∧ ∃ w fs, v.Made i w ∧ w.fs.unlink v.place = some fs ∧
          t'.world = { w with fs := fs })) := by
  have removes : ∀ t : SysTape lib, v.Zipped i t →
      Wp (tapeSem still (sysSem lib True)) (fun _ _ => True) False (unlink v.zip) t
        (fun gone t' => (gone = false ∧ v.At t') ∨ (gone = true ∧
          deeds t'.log = ⟨1, true, true⟩ ∧ ∃ w fs, v.Made i w ∧ w.fs.unlink v.place = some fs ∧
            t'.world = { w with fs := fs })) := by
    intro t zipped
    apply wp_sys trivial False.elim
    rintro gone w' ⟨w, same, answer⟩
    obtain rfl : t.world = w := same
    have kept : gone = false → w' = t.world → v.At (Tape.after t (.unlink v.zip) gone w') := by
      rintro rfl rfl
      have same : deeds (Tape.after t (.unlink v.zip) false t.world).log = ⟨1, true, false⟩ := by
        show (deeds t.log).enter _ = _
        rw [zipped.deeds]
        rfl
      exact Zipped.at (i := i) ⟨same, zipped.made⟩
    rcases answer with (⟨fs', unlinked, rfl, rfl⟩ | ⟨_, stays, same⟩) | ⟨_, stays, same⟩
    · rw [zipped.made.loc] at unlinked
      refine Or.inr ⟨rfl, ?_, t.world, fs', zipped.made, unlinked, rfl⟩
      show (deeds t.log).enter _ = _
      rw [zipped.deeds]
      rfl
    · exact Or.inl ⟨stays, kept stays same⟩
    · exact Or.inl ⟨stays, kept stays same⟩
  unfold rm
  rw [show MAX_PATH_LENGTH = 4096 + 1 from rfl, rmTree]
  simp only [Prog.bind_eq, Prog.pure_eq]
  apply wp_sys_bind trivial False.elim
  rintro r w' ⟨w, same, answer⟩
  obtain rfl : t.world = w := same
  obtain rfl := reads_same (e := .lstat v.zip) trivial answer
  have zipped : v.Zipped i (Tape.after t (.lstat v.zip) r t.world) := ⟨zipped.deeds, zipped.made⟩
  obtain ⟨x, named, kind⟩ := zipped.made.named
  cases r with
  | none => exact wp_ret.mpr (Or.inl ⟨rfl, zipped.at⟩)
  | some st =>
      have mode : st.st_mode = .reg ∨ st.st_mode = .lnk := by
        rcases answer with ⟨found, _⟩ | ⟨_, no, _⟩
        · rw [zipped.made.loc] at found
          rcases kind with ⟨j, rfl⟩ | ⟨l', rfl⟩
          · simp only [StatOf, show t.world.fs.node v.place = _ from named] at found
            rw [found]
            exact Or.inl rfl
          · simp only [StatOf, show t.world.fs.node v.place = _ from named] at found
            exact Or.inr found
        · cases no
      dsimp only
      rcases mode with mode | mode
      · rw [mode]
        exact removes _ zipped
      · rw [mode]
        exact removes _ zipped

/-- The clean-up without an archive that is open. -/
theorem senderCleanUp_at (there : v.At t) (status : Int) :
    Wp (soloSem (tapeSem still (sysSem lib True))) (fun _ _ => True) False
      (senderCleanUp none status).loc t (fun _ t' => v.At t') := by
  apply wp_solo_loc
  apply wp_sys_bind trivial False.elim
  rintro r w' ⟨w, same, answer⟩
  obtain rfl : t.world = w := same
  obtain rfl := reads_same (e := .zipClose none) rfl answer
  exact wp_ret.mpr there

/-- The way back. -/
theorem goHome_at {i : Nat} {w : World} {fs : Store Name UInt8} (made : v.Made i w)
    (gone : w.fs.unlink v.place = some fs) (done : deeds t.log = ⟨1, true, true⟩)
    (here : t.world = { w with fs := fs }) (status : Int) :
    Wp (soloSem (tapeSem still (sysSem lib True))) (fun _ _ => True) False
      (Prog.bind (Prog.loc (cd (render v.world.cwd))) (fun ok =>
        if ok = true then (senderCleanUp none status).loc else (senderCleanUp none (-1)).loc)) t
      (fun _ t' => v.At t') := by
  have dir : fs.node v.world.cwd = some .dir := by
    have there := made.keeps v.home
    have other : v.world.cwd ≠ v.place := by
      intro same
      obtain ⟨x, named, kind⟩ := made.named
      rw [← same, there] at named
      cases named
      simp at kind
    rw [((Store.unlink_spec gone).2 _ other).1]
    exact there
  have home : t.world.target (render v.world.cwd) = v.world.cwd := by
    rw [World.target, World.loc, resolve_render, here]
    apply Store.follow_eq_self
    intro l link
    rw [show ({ w with fs := fs } : World).fs.node v.world.cwd = _ from dir] at link
    cases link
  apply wp_solo_bind trivial False.elim
  rintro moved w' ⟨w₀, same, answer⟩
  obtain rfl : t.world = w₀ := same
  have entered : deeds (Tape.after t (.chdir (render v.world.cwd)) moved w').log =
      ⟨1 + moved.toNat, true, true⟩ := by
    show (deeds t.log).enter _ = _
    rw [done]
    rfl
  rcases answer with (⟨rfl, _, rfl⟩ | ⟨rfl, _, rfl⟩) | ⟨_, rfl, rfl⟩
  · apply senderCleanUp_at
    unfold At
    rw [entered]
    show v.Holds _ { t.world with cwd := t.world.target (render v.world.cwd) }
    rw [home, here]
    exact .back made gone
  · apply senderCleanUp_at
    unfold At
    rw [entered]
    show v.Holds _ t.world
    rw [here]
    exact .removed made gone
  · apply senderCleanUp_at
    unfold At
    rw [entered]
    show v.Holds _ t.world
    rw [here]
    exact .removed made gone

/-- A stretch that only reads leaves the archive as it is. -/
theorem Zipped.steady {i : Nat} (zipped : v.Zipped i t) {t' : SysTape lib}
    (kept : Filerail.deeds t'.log = ⟨1, true, false⟩ ∧ t'.world = t.world) : v.Zipped i t' where
  deeds := kept.1
  made := kept.2 ▸ zipped.made

theorem verdictStatus_calm (response_type : UInt8) :
    (verdictStatus response_type : L lib Int).loc.Calls Calm := by
  apply Prog.Calls.lift
  unfold verdictStatus
  split
  · trivial
  · split
    · trivial
    · exact Prog.Calls.bind (.perform trivial) (fun _ => trivial)

theorem answerCommand_calm (is_server : Bool) (command_type : UInt8) :
    (answerCommand is_server command_type : P lib _).Calls Calm := by
  have asks : (wantsResume is_server : L lib Bool).loc.Calls Calm := by
    apply Prog.Calls.lift
    unfold wantsResume
    split
    · trivial
    · exact Prog.Calls.bind (.perform trivial) (fun _ => trivial)
  unfold answerCommand
  split
  · apply Prog.Calls.bind asks
    intro wants
    split
    · apply Prog.Calls.bind (.perform trivial)
      intro sent
      split
      · exact .perform trivial
      · trivial
    · apply Prog.Calls.bind (.perform trivial)
      intro sent
      split <;> trivial
  · split
    · trivial
    · exact Prog.Calls.bind (Prog.Calls.lift (.perform trivial)) (fun _ => trivial)

theorem finishSending_at {i : Nat} (zipped : v.Zipped i t) :
    Wp (soloSem (tapeSem still (sysSem lib True))) (fun _ _ => True) False
      (finishSending v.zip (render v.world.cwd)) t (fun _ t' => v.At t') := by
  have steady : Steady (still : SysEnv lib) _ _ := steady_deeds ⟨1, true, false⟩ t.world
  unfold finishSending
  simp only [Prog.bind_eq]
  apply wp_calm_recv steady zipped.deeds rfl
  intro response t₁ done₁ same₁
  cases response with
  | none => exact senderCleanUp_at (zipped.steady ⟨done₁, same₁⟩).at _
  | some response_type =>
      apply wp_bind
      apply wp_mono (wp_calm_calls steady done₁ same₁ (verdictStatus_calm response_type))
      intro exit_status t₂ kept₂
      apply wp_bind
      apply wp_solo_loc
      apply wp_mono (rm_zipped (zipped.steady kept₂))
      rintro gone t₃ (⟨rfl, there⟩ | ⟨rfl, done, w, fs, made, unlinked, here⟩)
      · exact senderCleanUp_at there _
      · exact goHome_at made unlinked done here exit_status

theorem offerZip_at {i : Nat} (zipped : v.Zipped i t) :
    Wp (soloSem (tapeSem still (sysSem lib True))) (fun _ _ => True) False
      (offerZip v.is_server v.zip (render v.world.cwd) v.K) t (fun _ t' => v.At t') := by
  have steady : Steady (still : SysEnv lib) _ _ := steady_deeds ⟨1, true, false⟩ t.world
  unfold offerZip
  simp only [Prog.bind_eq]
  have hashes : Wp (tapeSem still (sysSem lib True)) (fun _ _ => True) False (md5 v.zip) t
      (fun _ t' => deeds t'.log = ⟨1, true, false⟩ ∧ t'.world = t.world) := by
    obtain ⟨target, file⟩ := zipped.made.file
    have digests : Wp (tapeSem still (sysSem lib True)) (fun _ _ => True) False (md5 v.zip) t
        (Digested (fun log => deeds log = ⟨1, true, false⟩) (· = t.world) True
          (t.world.fs.data i)) := by
      apply md5_wp steady _ _ zipped.deeds rfl
      · exact v.inside.target v.zip
      · exact i
      · rintro _ rfl
        exact ⟨target, file, rfl⟩
      · intro _ _ _ _ _ _
        trivial
    apply wp_mono digests
    rintro _ t' ⟨kept, _⟩
    exact kept
  apply wp_bind
  apply wp_solo_loc
  apply wp_mono hashes
  intro hash t₁ kept₁
  cases hash with
  | none => exact senderCleanUp_at (zipped.steady kept₁).at _
  | some hash =>
      apply wp_calm_send steady kept₁.1 kept₁.2
      intro sent t₂ done₂ same₂
      cases sent with
      | false => exact senderCleanUp_at (zipped.steady ⟨done₂, same₂⟩).at _
      | true =>
          rw [if_pos rfl]
          apply wp_calm_recv steady done₂ same₂
          intro command t₃ done₃ same₃
          cases command with
          | none => exact senderCleanUp_at (zipped.steady ⟨done₃, same₃⟩).at _
          | some command_type =>
              apply wp_bind
              apply wp_mono (wp_calm_calls steady done₃ same₃
                (answerCommand_calm v.is_server command_type))
              intro offset t₄ kept₄
              cases offset with
              | none => exact senderCleanUp_at (zipped.steady kept₄).at _
              | some offset =>
                  apply wp_bind
                  apply wp_mono (sendfile_steady steady kept₄.1 kept₄.2 v.zip v.K offset)
                  intro status t₅ kept₅
                  split
                  · exact senderCleanUp_at (zipped.steady kept₅).at _
                  · exact finishSending_at (zipped.steady kept₅)

/-- The end of a call that has not come to the archive. -/
theorem zipCloseWild_at (there : v.At t) :
    Wp (soloSem (tapeSem still (sysSem lib True))) (fun _ _ => True) False
      (Prog.bind (Prog.loc zipCloseWild) (fun _ => .ret (-1))) t (fun (_ : Int) t' => v.At t') := by
  apply wp_solo_bind trivial False.elim
  rintro r w' ⟨w, same, answer⟩
  obtain rfl : t.world = w := same
  obtain rfl := reads_same (e := .zipCloseWild) trivial answer
  exact wp_ret.mpr there

/-- The handler from the directory of the resource on. -/
theorem zipResource_at (done : deeds t.log = ⟨1, false, false⟩) (here : t.world = v.inside) :
    Wp (soloSem (tapeSem still (sysSem lib True))) (fun _ _ => True) False
      (Prog.bind (Prog.loc (zipResource v.zip v.resource_name v.stat_resource)) (fun out =>
        if out.2 = true then
          Prog.bind (Prog.loc (zipClose out.1)) (fun _ =>
            offerZip v.is_server v.zip (render v.world.cwd) v.K)
        else (senderCleanUp out.1 0).loc)) t (fun _ t' => v.At t') := by
  apply wp_bind
  apply wp_solo_loc
  apply wp_mono (zipResource_filling done here)
  rintro ⟨zip, ok⟩ t₁ (⟨same, there⟩ | ⟨z, rfl, zipped⟩)
  · cases same
    exact senderCleanUp_at there 0
  · have closes : ∀ r w', Answers still True t₁ (.zipClose (some z)) r w' →
        v.Zipped z.ino (Tape.after t₁ (.zipClose (some z)) r w') :=
      fun r w' answer => zipped_endures z.ino zipped (Or.inr rfl) answer
    cases ok with
    | true =>
        apply wp_solo_bind trivial False.elim
        intro r w' answer
        exact offerZip_at (closes r w' answer)
    | false =>
        apply wp_solo_loc
        apply wp_sys_bind trivial False.elim
        intro r w' answer
        exact wp_ret.mpr (closes r w' answer).at

theorem send_at (v : Offering) :
    Wp (soloSem (tapeSem still (sysSem lib True))) (fun _ _ => True) False (v.send lib)
      ⟨v.world, []⟩ (fun _ t' => v.At t') := by
  unfold send sendfileHandler
  simp only [Prog.bind_eq]
  apply wp_solo_bind trivial False.elim
  rintro r w' ⟨w, same, answer⟩
  obtain rfl : v.world = w := same
  obtain rfl := reads_same (e := .getcwd) trivial answer
  cases r with
  | none =>
      apply zipCloseWild_at
      exact .home
  | some current_dir =>
      have home : current_dir = render v.world.cwd := by
        rcases answer with ⟨same, _⟩ | ⟨_, no, _⟩
        · exact Option.some.inj same
        · cases no
      subst home
      apply wp_solo_bind trivial False.elim
      rintro moved w₁ ⟨w, same, answer⟩
      obtain rfl : v.world = w := same
      rcases answer with (⟨rfl, _, rfl⟩ | ⟨rfl, _, rfl⟩) | ⟨_, rfl, rfl⟩
      · exact zipResource_at rfl rfl
      · apply zipCloseWild_at
        exact .home
      · apply zipCloseWild_at
        exact .home

end Handler

/-! ### Two runs -/

/-- The resource `a` is in `/d`. -/
def smallStore : Store Name UInt8 :=
  tree [letter 100] [([letter 100, letter 97], [1])]

/-- Next to it is a file that is called `a.zip`. -/
def crowdedStore : Store Name UInt8 :=
  tree [letter 100] [([letter 100, letter 97], [1]),
    ([letter 100, ⟨[97, 46, 122, 105, 112], by decide⟩], [7])]

/-- A server in the root directory sends `/d/a`. -/
def offerSmall (fs : Store Name UInt8) : Offering where
  is_server := true
  resource_dir := [slash, 100]
  resource_name := [97]
  stat_resource := ⟨.reg, 1⟩
  K := ⟨zeros _, zeros _⟩
  world := ⟨fs, []⟩
  home := fs.root_dir

/-- A transfer in which everything goes well. -/
@[irreducible] def offeringRun (fs : Store Name UInt8) : P reference Int × SysTape reference :=
  Prog.play (Player.solo (machine reference True).onTape)
    (List.replicate 14 (.loc .works) ++ [.taken, .frame .code Command.restart.code] ++
      List.replicate 2 (.loc .works) ++ [.taken] ++ List.replicate 5 (.loc .works) ++ [.taken] ++
      List.replicate 4 (.loc .works) ++ [.frame .code Response.ok.code] ++
      List.replicate 4 (.loc .works))
    ((offerSmall fs).send reference, ⟨⟨fs, []⟩, []⟩)

theorem reach_offeringRun {fs : Store Name UInt8} (returned : (offeringRun fs).1.result = some 0) :
    Prog.Reach (soloSem (tapeSem still (sysSem reference True)))
      ((offerSmall fs).send reference, ⟨⟨fs, []⟩, []⟩) (.ret 0, (offeringRun fs).2) := by
  apply Prog.reach_ret _ returned
  unfold offeringRun
  exact reach_play _ _ _

end Offering

end Filerail
