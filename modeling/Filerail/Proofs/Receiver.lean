/-
Module: Filerail.Proofs.Receiver
Layer: Proofs
Purpose: The receiving handler on its own machine, against a sender that keeps to the protocol and
  transfers the file `F`. `Files` lists what the partial file and the checkpoint may hold between any
  two system calls of a session; everything that is said about crashes is read off it. The proofs
  follow the functions of the code: the search for a checkpoint, the seek, the packet loop with its
  checkpoint, the verification, and the removal of the files.
Imports: Filerail.Proofs.Site, Filerail.Proofs.Working
Main exports: Site.Record, Usable, Start, received, Files, Stage, receiverGuard, Outcome,
  recvfileHandler_wp
-/
import Filerail.Proofs.Site
import Filerail.Proofs.Working

namespace Filerail

open FileStore ProgramLogic

/-! ### What the files of a session hold -/

/-- A complete checkpoint record of the site, as the code writes it. -/
def Site.Record (site : Site) (k : UInt64) (img : List UInt8) : Prop :=
  ∃ ckpt padding, img = Checkpoint.image ckpt padding ∧ ckpt.offset = k ∧
    ckpt.pathStr = site.resource_path

/-- The checkpoint `c` and the partial file `d` let the receiver offer to resume at `k`. -/
structure Usable (site : Site) (d c : Option (List UInt8)) (k : UInt64) (B : List UInt8) : Prop where
  data : d = some B
  complete : ∃ img, c = some img ∧ (img.take sizeofCheckpoint).length = sizeofCheckpoint ∧
    (Checkpoint.ofImage (img.take sizeofCheckpoint)).offset = k ∧
    (Checkpoint.ofImage (img.take sizeofCheckpoint)).pathStr = site.resource_path
  covered : k.toNat ≤ B.length

/-- Where a session starts to write: from nothing, or at an offset of what is there. -/
inductive Start (site : Site) (d c : Option (List UInt8)) : UInt64 → List UInt8 → Prop
  | anew : Start site d c 0 []
  | resume {k : UInt64} {B : List UInt8} (usable : Usable site d c k B) (some_offset : k ≠ 0) :
      Start site d c k B

/-- The partial file when the session, started at `k` on `B`, has received `F` up to `m`. -/
def received (B : List UInt8) (k : Nat) (F : List UInt8) (m : Nat) : List UInt8 :=
  splice B k ((F.take m).drop k)

/-- The checkpoint says that the session has come from `k` to `m`. -/
def Saved (site : Site) (c₀ : Option (List UInt8)) (k m : Nat) (c : Option (List UInt8)) : Prop :=
  (c = c₀ ∧ m = k) ∨ ∃ img, c = some img ∧ site.Record (.ofNat m) img

/-- What the partial file and the checkpoint hold in a session that found `d₀` and `c₀`. -/
inductive Files (site : Site) (F : List UInt8) (d₀ c₀ : Option (List UInt8)) :
    Option (List UInt8) → Option (List UInt8) → Prop
  | untouched : Files site F d₀ c₀ d₀ c₀
  | writing {k : UInt64} {B : List UInt8} {m m' : Nat} {c : Option (List UInt8)}
      (start : Start site d₀ c₀ k B) (first : k.toNat ≤ m') (behind : m' ≤ m) (inside : m ≤ F.length)
      (saved : Saved site c₀ k.toNat m' c) :
      Files site F d₀ c₀ (some (received B k.toNat F m)) c
  | removed {k : UInt64} {B : List UInt8} {c : Option (List UInt8)} (start : Start site d₀ c₀ k B)
      (saved : Saved site c₀ k.toNat F.length c) : Files site F d₀ c₀ none c
  | clean : Files site F d₀ c₀ none none

theorem Start.offset_le {site : Site} {d c : Option (List UInt8)} {k : UInt64} {B : List UInt8}
    (start : Start site d c k B) : k.toNat ≤ B.length := by
  cases start with
  | anew => exact Nat.le_refl _
  | resume usable _ => exact usable.covered

section Received

variable {B F : List UInt8} {k m : Nat}

theorem received_self (B F : List UInt8) (k : Nat) : received B k F k = B := by
  rw [received, List.drop_of_length_le (by rw [List.length_take]; omega), splice_nil]

/-- A session that started from nothing has a prefix of the file. -/
theorem received_zero (F : List UInt8) (m : Nat) : received [] 0 F m = F.take m := by
  rw [received, splice_of_le (Nat.zero_le _)]
  simp

theorem length_received (fits : k ≤ B.length) (ahead : k ≤ m) (inside : m ≤ F.length) :
    (received B k F m).length = max B.length m := by
  rw [received, length_splice fits, List.length_drop, List.length_take]
  omega

/-- The next bytes of the file, written where the last ones ended. -/
theorem received_add (fits : k ≤ B.length) (ahead : k ≤ m) (inside : m ≤ F.length) (n : Nat) :
    splice (received B k F m) m ((F.drop m).take n) = received B k F (m + n) := by
  have length : ((F.take m).drop k).length = m - k := by
    rw [List.length_drop, List.length_take, Nat.min_eq_left inside]
  have joined := splice_splice fits ((F.take m).drop k) ((F.drop m).take n)
  rw [length, Nat.add_sub_cancel' ahead] at joined
  rw [received, joined, received, List.take_add, List.drop_append_of_le_length]
  rw [List.length_take]
  omega

/-- Resuming on a prefix of the file gives a prefix of the file. -/
theorem received_prefix (sane : B <+: F) (fits : k ≤ B.length) (ahead : k ≤ m)
    (inside : m ≤ F.length) : received B k F m = F.take (max B.length m) := by
  have short : B.length ≤ F.length := sane.length_le
  have front : B.take k = F.take k := by
    rw [List.prefix_iff_eq_take.mp sane, List.take_take, Nat.min_eq_left fits]
  have middle : F.take k ++ (F.take m).drop k = F.take m := by
    rw [← Nat.min_eq_left ahead, ← List.take_take, Nat.min_eq_left ahead]
    exact List.take_append_drop k (F.take m)
  have last : (F.take B.length).drop m = (F.drop m).take (B.length - m) := List.drop_take
  calc received B k F m
      = F.take k ++ (F.take m).drop k ++ B.drop m := by
        rw [received, splice_of_le fits, front, List.length_drop, List.length_take,
          Nat.min_eq_left inside, Nat.add_sub_cancel' ahead]
    _ = F.take m ++ (F.drop m).take (B.length - m) := by
        rw [middle, ← last, ← List.prefix_iff_eq_take.mp sane]
    _ = F.take (max B.length m) := by
        rw [← List.take_add]
        congr 1
        omega

end Received

variable {lib : Lib}

/-! ### The temporary checkpoint -/

section Publishing

variable {site : Site} {h : Hash} {lands : Loc → Prop} {fs₀ : Store Name UInt8} {w : World}
  {d c : Option (List UInt8)}

/-- Opening the temporary checkpoint leaves it empty and the partial file where it was. -/
theorem View.openTmp (view : View site h lands fs₀ w.fs d c) (cwd : w.cwd = site.cwd) :
    ∃ j fs', Only lib w (.fopen (site.ckpt_resource_path h ++ dotTmp) .wb) (some (.opened j))
        { w with fs := fs' } ∧
      View site h lands fs₀ fs' d c ∧ fs'.node (site.tmp h) = some (.file j) ∧ fs'.data j = [] ∧
        fs'.node site.data = w.fs.node site.data := by
  have target := view.ready.target_tmp cwd
  rcases view.ready.tmp with absent | ⟨j, file⟩
  · obtain ⟨fs', made⟩ : ∃ fs', w.fs.create (site.tmp h) = some (w.fs.next, fs') :=
      Store.create_isSome view.ready.ckptDir absent
    have opens := made
    rw [← target] at opens
    obtain ⟨file, view'⟩ := view.createTmp made
    refine ⟨_, fs', only_fopen_create opens, view', file, ?_, ?_⟩
    · rw [(Store.create_eq_some made).2.2.2.2.1, Function.update_self]
    · exact ((Store.create_spec made).2.2 _ (site.data_ne_tmp h)).1
  · have opens := file
    rw [← target] at opens
    exact ⟨j, _, only_fopen_truncate opens, view.writeTmp file [], file,
      Store.setData_data_self _ _ _, rfl⟩

/-- Publishing the temporary checkpoint leaves the partial file where it was. -/
theorem View.publish (view : View site h lands fs₀ w.fs d c) (cwd : w.cwd = site.cwd) {j : Nat}
    (file : w.fs.node (site.tmp h) = some (.file j)) :
    ∃ fs', Only lib w (.rename (site.ckpt_resource_path h ++ dotTmp) (site.ckpt_resource_path h)) true
        { w with fs := fs' } ∧
      View site h lands fs₀ fs' d (some (w.fs.data j)) ∧
        fs'.node site.data = w.fs.node site.data := by
  have ne := (site.ckpt_ne_tmp h h).symm
  have notDir : w.fs.node (site.ckpt h) ≠ some .dir :=
    fun dir => view.ready.not_own_of_dir dir (Or.inr (Or.inl rfl))
  obtain ⟨fs', moved⟩ : ∃ fs', w.fs.rename (site.tmp h) (site.ckpt h) = some fs' :=
    Store.rename_isSome ne file view.ready.ckptDir notDir
  have renames := moved
  rw [← Site.loc_tmp cwd, ← Site.loc_ckpt cwd] at renames
  refine ⟨fs', only_rename renames, ?_, ?_⟩
  · rw [← Store.fileAt_of_node file]
    exact view.rename moved
  · exact ((Store.rename_spec ne moved).2.2.2 _ (site.data_ne_tmp h) (site.data_ne_ckpt h)).1

end Publishing

/-! ### One delivery -/

/-- The delivery of the file `F` to a site whose machine has the files `found`; the sender accepts to
    resume at `offsets`. -/
structure Delivery (lib : Lib) where
  site : Site
  F : List UInt8
  found : Store Name UInt8
  offsets : UInt64 → Prop
  ready : Ready site (lib.md5.digest F) found
  avoids : site.Avoids lib (lib.md5.digest F)
  small : F.length < 2 ^ 64
  accepts : ∀ k B, Usable site (found.fileAt site.data)
    (found.fileAt (site.ckpt (lib.md5.digest F))) k B →
      offsets k ∧ k.toNat ≤ F.length ∧ k.toNat ≤ 2 ^ 31

/-- No hash has been computed yet. -/
def Unhashed (log : List (SysEvent lib)) : Prop :=
  ∀ ctx r, (⟨.loc (.md5Final ctx), r⟩ : SysEvent lib) ∉ log

theorem Unhashed.cons {log : List (SysEvent lib)} (unhashed : Unhashed log)
    {a : Act (Sys lib.md5.Ctx) Schema.Val} (other : ∀ ctx, a ≠ .loc (.md5Final ctx))
    (r : a.Answer Sys.Resp) : Unhashed (⟨a, r⟩ :: log) := by
  intro ctx r' member
  cases member with
  | head => exact other ctx rfl
  | tail _ member => exact unhashed ctx r' member

/-- Neither the hash nor the extraction, at which more is known than elsewhere. -/
def Unmarked : Option (Sys lib.md5.Ctx) → Prop
  | some (.md5Final _) => False
  | some (.zipExtract _ _) => False
  | _ => True

theorem Unmarked.not_hash {e : Sys lib.md5.Ctx} (unmarked : Unmarked (some e)) (ctx : lib.md5.Ctx) :
    (Act.loc e : Act (Sys lib.md5.Ctx) Schema.Val) ≠ .loc (.md5Final ctx) := by
  rintro ⟨⟩
  exact unmarked

namespace Delivery

variable (v : Delivery lib)

/-- The hash of the file. -/
def hash : Hash := lib.md5.digest v.F

/-- The partial file as the session finds it. -/
def data₀ : Option (List UInt8) := v.found.fileAt v.site.data

/-- The checkpoint as the session finds it. -/
def ckpt₀ : Option (List UInt8) := v.found.fileAt (v.site.ckpt v.hash)

/-- What the sender may say. -/
def terms : Terms := pinned lib v.site.K v.F v.offsets

/-- The current directory and the files of the session. -/
structure Sees (cwd : Loc) (d c : Option (List UInt8)) (t : SysTape lib) : Prop where
  view : View v.site v.hash (v.site.Lands lib v.hash v.found) v.found t.world.fs d c
  cwd : t.world.cwd = cwd

/-- The same, before the hash is computed. -/
structure At (cwd : Loc) (d c : Option (List UInt8)) (t : SysTape lib) : Prop extends
  v.Sees cwd d c t where
  unhashed : Unhashed t.log

/-- The files of the session are as `Files` says. -/
def Stage (t : SysTape lib) : Prop :=
  ∃ cwd d c, v.Sees cwd d c t ∧ Files v.site v.F v.data₀ v.ckpt₀ d c

/-- The partial file holds all that the session was to receive. -/
def Complete (t : SysTape lib) (X : List UInt8) : Prop :=
  t.world.fs.fileAt v.site.data = some X ∧ ∃ k B, Start v.site v.data₀ v.ckpt₀ k B ∧
    X = received B k.toNat v.F v.F.length

/-- What holds in front of particular operations: the offset is sent with the partial file still as
    it was found; the hash, the verdict and the extraction are about the complete file. -/
def Point (t : SysTape lib) : Option (Act (Sys lib.md5.Ctx) Schema.Val) → Prop
  | some (.send .offset k) => ∃ B, Usable v.site v.data₀ v.ckpt₀ k B ∧
      t.world.fs.fileAt v.site.data = some B
  | some (.send .code r) => Unhashed t.log ∨ ∃ X, v.Complete t X ∧
      r = if lib.md5.digest X = v.hash then Response.ok.code else Response.noIntegrity.code
  | some (.loc (.md5Final _)) => ∃ X, v.Complete t X
  | some (.loc (.zipExtract path _)) =>
      t.world.target path = v.site.data ∧ ∃ X, v.Complete t X ∧ lib.md5.digest X = v.hash
  | _ => True

/-- The receiver keeps to the protocol, its files are in order, and each operation is in place. -/
def guard {P' : Type} (proto : Protocol P' Schema.Val) (side : Side)
    (s : Endpoint (SysTape lib) P') (a : Option (Act (Sys lib.md5.Ctx) Schema.Val)) : Prop :=
  Obeys proto side s a ∧ v.Stage s.tape ∧ v.Point s.tape a

section Lemmas

variable {v} {cwd : Loc} {d c : Option (List UInt8)} {t : SysTape lib} {P' : Type}
  {proto : Protocol P' Schema.Val} {side : Side}

theorem Sees.record (seen : v.Sees cwd d c t) (a : Act (Sys lib.md5.Ctx) Schema.Val)
    (r : a.Answer Sys.Resp) : v.Sees cwd d c (t.record a r) where
  view := seen.view
  cwd := seen.cwd

theorem At.record (seen : v.At cwd d c t) {a : Act (Sys lib.md5.Ctx) Schema.Val}
    (other : ∀ ctx, a ≠ .loc (.md5Final ctx)) (r : a.Answer Sys.Resp) :
    v.At cwd d c (t.record a r) where
  view := seen.view
  cwd := seen.cwd
  unhashed := seen.unhashed.cons other r

theorem At.after (seen : v.At cwd d c t) {e : Sys lib.md5.Ctx} (unmarked : Unmarked (some e))
    (r : e.Resp) : v.At cwd d c (Tape.after t e r t.world) where
  view := seen.view
  cwd := seen.cwd
  unhashed := seen.unhashed.cons unmarked.not_hash r

theorem At.moved (seen : v.At cwd d c t) {e : Sys lib.md5.Ctx} (unmarked : Unmarked (some e))
    (r : e.Resp) {w' : World} {d' c' : Option (List UInt8)}
    (view : View v.site v.hash (v.site.Lands lib v.hash v.found) v.found w'.fs d' c')
    (same : w'.cwd = t.world.cwd) : v.At cwd d' c' (Tape.after t e r w') where
  view := view
  cwd := same.trans seen.cwd
  unhashed := seen.unhashed.cons unmarked.not_hash r

theorem guard_loc {b : Bool} {p : P'} (seen : v.Sees cwd d c t)
    (files : Files v.site v.F v.data₀ v.ckpt₀ d c) {e : Option (Sys lib.md5.Ctx)}
    (unmarked : Unmarked e) : v.guard proto side ⟨t, p, b⟩ (e.map .loc) := by
  refine ⟨?_, ⟨cwd, d, c, seen, files⟩, ?_⟩
  · cases e <;> trivial
  · cases e with
    | none => trivial
    | some e => cases e <;> trivial

theorem guard_call {b : Bool} {p : P'} (seen : v.Sees cwd d c t)
    (files : Files v.site v.F v.data₀ v.ckpt₀ d c) {e : Sys lib.md5.Ctx}
    (unmarked : Unmarked (some e)) : v.guard proto side ⟨t, p, b⟩ (some (.loc e)) :=
  guard_loc (e := some e) seen files unmarked

/-! Where the paths of the session lead. -/

namespace Sees

section

variable (seen : v.Sees cwd d c t)

include seen

theorem data_file {B : List UInt8} (known : d = some B) :
    ∃ i, t.world.fs.node v.site.data = some (.file i) ∧ t.world.fs.data i = B :=
  Store.fileAt_eq_some_iff.mp (seen.view.data.trans known)

theorem data_absent (known : d = none) : t.world.fs.node v.site.data = none := by
  rcases seen.view.ready.data.cases_fileAt with ⟨absent, _⟩ | ⟨i, _, content⟩
  · exact absent
  · rw [seen.view.data, known] at content
    cases content

theorem ckpt_file {img : List UInt8} (known : c = some img) :
    ∃ i, t.world.fs.node (v.site.ckpt v.hash) = some (.file i) ∧ t.world.fs.data i = img :=
  Store.fileAt_eq_some_iff.mp (seen.view.ckpt.trans known)

theorem ckpt_absent (known : c = none) : t.world.fs.node (v.site.ckpt v.hash) = none := by
  rcases seen.view.ready.ckpt.cases_fileAt with ⟨absent, _⟩ | ⟨i, _, content⟩
  · exact absent
  · rw [seen.view.ckpt, known] at content
    cases content

end

variable (seen : v.Sees v.site.cwd d c t)

include seen

theorem loc_data : t.world.loc v.site.resource_path = v.site.data :=
  Site.loc_data seen.cwd

theorem target_data : t.world.target v.site.resource_path = v.site.data :=
  seen.view.ready.target_data seen.cwd

theorem loc_ckpt : t.world.loc (v.site.ckpt_resource_path v.hash) = v.site.ckpt v.hash :=
  Site.loc_ckpt seen.cwd

theorem target_ckpt : t.world.target (v.site.ckpt_resource_path v.hash) = v.site.ckpt v.hash :=
  seen.view.ready.target_ckpt seen.cwd

end Sees

end Lemmas

/-- A guard of local code that holds wherever the files of the session are in order. -/
def Watch (guard : SysTape lib → Option (Sys lib.md5.Ctx) → Prop) : Prop :=
  ∀ cwd d c t e, v.Sees cwd d c t → Files v.site v.F v.data₀ v.ckpt₀ d c → Unmarked e → guard t e

theorem watch_guard {P' : Type} {proto : Protocol P' Schema.Val} {side : Side} {p : P'} {b : Bool} :
    v.Watch (fun t e => v.guard proto side ⟨t, p, b⟩ (e.map .loc)) :=
  fun _ _ _ _ _ seen files unmarked => guard_loc seen files unmarked

/-- A local call that changes nothing. -/
theorem wp_peek {total : Prop} {α : Type} {guard : SysTape lib → Option (Sys lib.md5.Ctx) → Prop}
    (watch : v.Watch guard) {cwd : Loc} {d c : Option (List UInt8)} {t : SysTape lib}
    {e : Sys lib.md5.Ctx} {f : e.Resp → L lib α} {post : α → SysTape lib → Prop} {r : e.Resp}
    (seen : v.At cwd d c t) (files : Files v.site v.F v.data₀ v.ckpt₀ d c)
    (unmarked : Unmarked (some e)) (only : Only lib t.world e r t.world)
    (next : ∀ t', t'.world = t.world → v.At cwd d c t' → Wp (Alone lib) guard total (f r) t' post) :
    Wp (Alone lib) guard total (Prog.bind (sys e) f) t post :=
  wp_only_bind only (watch _ _ _ _ _ seen.toSees files unmarked)
    (next _ rfl (seen.after unmarked r))

/-- A local call that changes the files of the session. -/
theorem wp_move {total : Prop} {α : Type} {guard : SysTape lib → Option (Sys lib.md5.Ctx) → Prop}
    (watch : v.Watch guard) {cwd : Loc} {d c d' c' : Option (List UInt8)} {t : SysTape lib}
    {e : Sys lib.md5.Ctx} {f : e.Resp → L lib α} {post : α → SysTape lib → Prop} {r : e.Resp}
    {w' : World} (seen : v.At cwd d c t) (files : Files v.site v.F v.data₀ v.ckpt₀ d c)
    (unmarked : Unmarked (some e)) (only : Only lib t.world e r w')
    (view : View v.site v.hash (v.site.Lands lib v.hash v.found) v.found w'.fs d' c')
    (same : w'.cwd = t.world.cwd)
    (next : ∀ t', t'.world = w' → v.At cwd d' c' t' → Wp (Alone lib) guard total (f r) t' post) :
    Wp (Alone lib) guard total (Prog.bind (sys e) f) t post :=
  wp_only_bind only (watch _ _ _ _ _ seen.toSees files unmarked)
    (next _ rfl (seen.moved unmarked r view same))

/-- A write of bytes from inside the buffer to a stream that has nothing left to flush. -/
theorem wp_write {total : Prop} {α : Type} {guard : SysTape lib → Option (Sys lib.md5.Ctx) → Prop}
    (watch : v.Watch guard) {cwd : Loc} {d c : Option (List UInt8)} {t : SysTape lib} {fp : Stream}
    {buffer : List UInt8} {n : Nat} {f : Nat × Stream → L lib α} {post : α → SysTape lib → Prop}
    (seen : v.At cwd d c t) (files : Files v.site v.F v.data₀ v.ckpt₀ d c)
    (fits : n ≤ buffer.length) (clean : fp.pending = [])
    (next : ∀ j t', t'.world = t.world.flushed fp (buffer.take n) j → Unhashed t'.log →
      Wp (Alone lib) guard total (f (n, fp.flushed (buffer.take n) j)) t' post) :
    Wp (Alone lib) guard total (Prog.bind (fwrite fp buffer n) f) t post := by
  refine wp_does_bind (watch _ _ _ _ _ seen.toSees files trivial) (fun _ => does_answers _ _ (by simp))
    (fun r w' does => ?_)
  obtain ⟨j, rfl, rfl⟩ := fwrite_inside fits does
  rw [clean, List.nil_append]
  exact next j _ rfl (seen.unhashed.cons (by simp) _)

/-- A call of a communicating function that changes nothing. -/
theorem wp_look {lossy total : Prop} {P' β : Type} {proto : Protocol P' Schema.Val} {side : Side}
    {cwd : Loc} {d c : Option (List UInt8)} {t : SysTape lib} {p : P'} {b : Bool}
    {e : Sys lib.md5.Ctx} {f : e.Resp → P lib β} {post : β → Endpoint (SysTape lib) P' → Prop}
    {r : e.Resp} (seen : v.At cwd d c t) (files : Files v.site v.F v.data₀ v.ckpt₀ d c)
    (unmarked : Unmarked (some e)) (only : Only lib t.world e r t.world)
    (next : ∀ t', t'.world = t.world → v.At cwd d c t' →
      Wp (endpointSem proto side lossy (Alone lib)) (v.guard proto side) total (f r) ⟨t', p, b⟩
        post) :
    Wp (endpointSem proto side lossy (Alone lib)) (v.guard proto side) total
      (Prog.bind (Prog.loc (sys e)) f) ⟨t, p, b⟩ post :=
  wp_only_call_bind only (guard_call seen.toSees files unmarked)
    (next _ rfl (seen.after unmarked r))

section Calls

variable {lossy total : Prop} {P' β : Type} {proto : Protocol P' Schema.Val} {side : Side}
  {cwd : Loc} {d c d' c' : Option (List UInt8)} {t : SysTape lib} {p : P'} {b : Bool}
  {post : β → Endpoint (SysTape lib) P' → Prop}

/-- A call of a communicating function that changes the files of the session. -/
theorem wp_act {e : Sys lib.md5.Ctx} {f : e.Resp → P lib β} {r : e.Resp} {w' : World}
    (seen : v.At cwd d c t) (files : Files v.site v.F v.data₀ v.ckpt₀ d c)
    (unmarked : Unmarked (some e)) (only : Only lib t.world e r w')
    (view : View v.site v.hash (v.site.Lands lib v.hash v.found) v.found w'.fs d' c')
    (same : w'.cwd = t.world.cwd)
    (next : ∀ t', t'.world = w' → v.At cwd d' c' t' →
      Wp (endpointSem proto side lossy (Alone lib)) (v.guard proto side) total (f r) ⟨t', p, b⟩
        post) :
    Wp (endpointSem proto side lossy (Alone lib)) (v.guard proto side) total
      (Prog.bind (Prog.loc (sys e)) f) ⟨t, p, b⟩ post := by
  apply wp_loc_bind
  rw [← Prog.bind_ret (sys e)]
  refine wp_move v v.watch_guard seen files unmarked only view same (fun t' same seen => ?_)
  exact wp_ret.mpr (next t' same seen)

/-- A write in a communicating function. -/
theorem wp_store {fp : Stream} {buffer : List UInt8} {n : Nat} {f : Nat × Stream → P lib β}
    (seen : v.At cwd d c t) (files : Files v.site v.F v.data₀ v.ckpt₀ d c)
    (fits : n ≤ buffer.length) (clean : fp.pending = [])
    (next : ∀ j t', t'.world = t.world.flushed fp (buffer.take n) j → Unhashed t'.log →
      Wp (endpointSem proto side lossy (Alone lib)) (v.guard proto side) total
        (f (n, fp.flushed (buffer.take n) j)) ⟨t', p, b⟩ post) :
    Wp (endpointSem proto side lossy (Alone lib)) (v.guard proto side) total
      (Prog.bind (Prog.loc (fwrite fp buffer n)) f) ⟨t, p, b⟩ post := by
  apply wp_loc_bind
  rw [← Prog.bind_ret (fwrite fp buffer n)]
  refine wp_write v v.watch_guard seen files fits clean (fun j t' same unhashed => ?_)
  exact wp_ret.mpr (next j t' same unhashed)

end Calls

/-! ### The search for a checkpoint -/

section Negotiation

variable {v} {lossy total : Prop} {P' : Type} {proto : Protocol P' Schema.Val} {put : Phase → P'}
  {sender : Side} {t : SysTape lib}

/-- What the search leaves: an offset both sides know, or a connection that is down. -/
def Negotiated (v : Delivery lib) (put : Phase → P') (lossy : Prop)
    (r : Option Stream × Int × Option UInt64) (s : Endpoint (SysTape lib) P') : Prop :=
  v.At v.site.cwd v.data₀ v.ckpt₀ s.tape ∧ (∀ fp, r.1 = some fp → fp.pending = []) ∧
    ((∃ k B, r.2.2 = some k ∧ Start v.site v.data₀ v.ckpt₀ k B ∧ s.pos = put (.header v.hash k) ∧
      s.broken = false) ∨ (r.2.2 = none ∧ lossy))

theorem restart_wp (carries : Carries proto put sender v.terms)
    (seen : v.At v.site.cwd v.data₀ v.ckpt₀ t) {fp : Option Stream}
    (closed : ∀ fp', fp = some fp' → fp'.pending = []) (status : Int) :
    Wp (endpointSem proto sender.other lossy (Alone lib)) (v.guard proto sender.other) total
      (restart fp status) ⟨t, put (.command v.hash), false⟩ (Negotiated v put lossy) := by
  unfold restart
  simp only [Prog.bind_eq, Prog.pure_eq]
  refine wp_transmit carries rfl (Or.inr rfl) ?_ ?_ ?_
  · intro obeys
    exact ⟨obeys, ⟨_, _, _, seen.toSees, .untouched⟩, Or.inl seen.unhashed⟩
  · rw [Phase.next_restart, if_pos rfl, wp_ret]
    exact ⟨seen.record (by simp) _, closed, Or.inl ⟨0, [], rfl, .anew, rfl, rfl⟩⟩
  · intro lost
    rw [if_neg Bool.false_ne_true, wp_ret]
    exact ⟨seen.record (by simp) _, closed, Or.inr ⟨rfl, lost⟩⟩

theorem offerResume_wp (carries : Carries proto put sender v.terms)
    (seen : v.At v.site.cwd v.data₀ v.ckpt₀ t) {fp : Stream} (closed : fp.pending = [])
    {ckpt : Checkpoint} {B : List UInt8} (usable : Usable v.site v.data₀ v.ckpt₀ ckpt.offset B) :
    Wp (endpointSem proto sender.other lossy (Alone lib)) (v.guard proto sender.other) total
      (offerResume fp ckpt) ⟨t, put (.command v.hash), false⟩ (Negotiated v put lossy) := by
  have closed' : ∀ fp', some fp = some fp' → fp'.pending = [] := by
    rintro fp' ⟨⟩
    exact closed
  unfold offerResume
  simp only [Prog.bind_eq, Prog.pure_eq]
  refine wp_transmit carries rfl (Or.inl rfl) ?_ ?_ ?_
  · intro obeys
    exact ⟨obeys, ⟨_, _, _, seen.toSees, .untouched⟩, Or.inl seen.unhashed⟩
  · have seen := seen.record (a := .send .code Command.resume.code) (by simp) true
    rw [Phase.next_resume, if_pos rfl]
    refine wp_receive (p := .answer v.hash) (k := .code) carries (by rw [Side.other_other]; rfl) rfl ?_ ?_ ?_ ?_
    · intro obeys
      exact ⟨obeys, ⟨_, _, _, seen.toSees, .untouched⟩, trivial⟩
    · intro _
      exact ⟨Response.ok.code, Or.inl rfl⟩
    · intro response may
      have seen := seen.record (a := .recv .code) (by simp) (some response)
      rcases may with rfl | rfl
      · -- the sender agrees
        have accepted : v.offsets ckpt.offset := (v.accepts _ _ usable).1
        rw [Phase.next_ok]
        dsimp only
        rw [if_pos rfl]
        refine wp_transmit carries rfl accepted ?_ ?_ ?_
        · intro obeys
          exact ⟨obeys, ⟨_, _, _, seen.toSees, .untouched⟩, B, usable,
            seen.view.data.trans usable.data⟩
        · rw [Phase.next_offset, if_pos rfl, wp_ret]
          refine ⟨seen.record (by simp) _, closed', Or.inl ?_⟩
          by_cases zero : ckpt.offset = 0
          · exact ⟨0, [], congrArg some zero, .anew, by rw [zero], rfl⟩
          · exact ⟨_, B, rfl, .resume usable zero, rfl, rfl⟩
        · intro lost
          rw [if_neg Bool.false_ne_true, wp_ret]
          exact ⟨seen.record (by simp) _, closed', Or.inr ⟨rfl, lost⟩⟩
      · -- the sender declines
        rw [Phase.next_abort]
        dsimp only
        rw [if_neg (by decide), if_pos rfl, wp_ret]
        exact ⟨seen, closed', Or.inl ⟨0, [], rfl, .anew, rfl, rfl⟩⟩
    · intro lost
      rw [wp_ret]
      exact ⟨seen.record (by simp) _, closed', Or.inr ⟨rfl, lost⟩⟩
  · intro lost
    rw [if_neg Bool.false_ne_true, wp_ret]
    exact ⟨seen.record (by simp) _, closed', Or.inr ⟨rfl, lost⟩⟩

/-- The search for a checkpoint reads the checkpoint and the size of the partial file, and asks to
    resume only if both fit. -/
theorem negotiate_wp (carries : Carries proto put sender v.terms)
    (seen : v.At v.site.cwd v.data₀ v.ckpt₀ t) :
    Wp (endpointSem proto sender.other lossy (Alone lib)) (v.guard proto sender.other) total
      (negotiate (v.site.ckpt_resource_path v.hash) v.site.resource_path)
      ⟨t, put (.command v.hash), false⟩ (Negotiated v put lossy) := by
  unfold negotiate
  simp only [Prog.bind_eq, Prog.pure_eq]
  cases ckpt : v.ckpt₀ with
  | none =>
      have absent := seen.ckpt_absent ckpt
      rw [← seen.loc_ckpt] at absent
      refine wp_look v seen .untouched trivial (only_lstat_absent absent) (fun t' _ seen => ?_)
      exact restart_wp carries seen (by simp) 0
  | some img =>
      obtain ⟨i, file, content⟩ := seen.ckpt_file ckpt
      have file_target := file
      rw [← seen.loc_ckpt] at file
      rw [← seen.target_ckpt] at file_target
      refine wp_look v seen .untouched trivial (only_lstat_file file) (fun t₁ same seen => ?_)
      rw [← same] at file_target content
      refine wp_look v seen .untouched trivial (only_access (by rw [file_target]; simp))
        (fun t₂ same seen => ?_)
      rw [← same] at file_target content
      rw [if_pos rfl]
      refine wp_look v seen .untouched trivial (only_fopen_file (by simp) file_target)
        (fun t₃ same seen => ?_)
      rw [← same] at content
      obtain ⟨fp, closed, read⟩ := only_fread_start content sizeofCheckpoint
      refine wp_look v seen .untouched trivial read (fun t₄ _ seen => ?_)
      dsimp only
      have closed' : ∀ fp', some fp = some fp' → fp'.pending = [] := by
        rintro fp' ⟨⟩
        exact closed
      split
      · exact restart_wp carries seen closed' _
      · rename_i complete
        split
        · exact restart_wp carries seen closed' _
        · rename_i path
          cases data : v.data₀ with
          | none =>
              have absent := seen.data_absent data
              rw [← seen.target_data] at absent
              refine wp_look v seen .untouched trivial (only_stat_absent absent)
                (fun t₅ _ seen => ?_)
              exact restart_wp carries seen closed' _
          | some B =>
              obtain ⟨j, file, content⟩ := seen.data_file data
              rw [← seen.target_data] at file
              refine wp_look v seen .untouched trivial (only_stat_file file) (fun t₅ _ seen => ?_)
              dsimp only
              split
              · exact restart_wp carries seen closed' _
              · rename_i covered
                rw [content] at covered
                exact offerResume_wp carries seen closed
                  ⟨data, ⟨img, ckpt, Decidable.not_not.mp complete, rfl,
                    Decidable.not_not.mp path⟩, Nat.not_lt.mp covered⟩

end Negotiation

/-! ### Opening the partial file -/

section Opening

variable {v} {total : Prop} {guard : SysTape lib → Option (Sys lib.md5.Ctx) → Prop}
  {t : SysTape lib}

/-- The 32-bit counter of the seek is read as the number of bytes it has passed. -/
theorem seek_counter {n k : Nat} (n_le : n ≤ k) (k_le : k ≤ 2 ^ 31) :
    ((BitVec.ofNat 32 n).signExtend 64).toNat < k ↔ n < k := by
  rw [BitVec.toNat_signExtend, BitVec.toNat_setWidth, BitVec.toNat_ofNat, BitVec.msb_eq_decide,
    BitVec.toNat_ofNat]
  by_cases top : n < 2 ^ 31
  · have small : ¬ 2 ^ (32 - 1) ≤ n % 2 ^ 32 := by omega
    simp only [small, decide_false, Bool.false_eq_true, if_false]
    omega
  · have big : 2 ^ (32 - 1) ≤ n % 2 ^ 32 := by omega
    simp only [big, decide_true, if_true]
    omega

/-- The seek has passed `n` bytes. -/
def Seeking (v : Delivery lib) (i : Nat) (k : UInt64) (B : List UInt8)
    (st : BitVec 32 × Option Stream) (t : SysTape lib) : Prop :=
  ∃ n ≤ k.toNat, st = (.ofNat 32 n, some { Stream.opened i with pos := n }) ∧
    v.At v.site.cwd (some B) v.ckpt₀ t ∧ t.world.fs.node v.site.data = some (.file i)

/-- Bytes the seek still has to pass. -/
def toSeek (k : UInt64) (st : BitVec 32 × Option Stream) : Nat :=
  match st.2 with
  | none => 0
  | some fp => k.toNat - fp.pos

/-- The partial file is open at the offset. -/
def Opened (v : Delivery lib) (k : UInt64) (B : List UInt8) (r : Option Stream × Bool)
    (t : SysTape lib) : Prop :=
  ∃ i, r = (some { Stream.opened i with pos := k.toNat }, true) ∧
    v.At v.site.cwd (some B) v.ckpt₀ t ∧ t.world.fs.node v.site.data = some (.file i)

theorem seekRound_wp (watch : v.Watch guard) {k : UInt64} {B : List UInt8} (data : v.data₀ = some B)
    (covered : k.toNat ≤ B.length) (short : k.toNat ≤ 2 ^ 31) {i : Nat}
    {st : BitVec 32 × Option Stream} (seeking : Seeking v i k B st t) :
    Wp (Alone lib) guard total (seekRound k st) t
      (LoopPost total (Seeking v i k B) (fun st _ => toSeek k st) (toSeek k st) (Opened v k B)) := by
  obtain ⟨n, passed, rfl, seen, file⟩ := seeking
  have files : Files v.site v.F v.data₀ v.ckpt₀ (some B) v.ckpt₀ := data ▸ .untouched
  unfold seekRound
  simp only [Prog.bind_eq, Prog.pure_eq, seek_counter passed short]
  by_cases more : n < k.toNat
  · have byte : (t.world.fs.data i)[n]? = some (B.get ⟨n, by omega⟩) := by
      obtain ⟨j, here, content⟩ := seen.data_file rfl
      rw [file] at here
      cases here
      rw [content, List.getElem?_eq_getElem (more.trans_le covered)]
      rfl
    rw [if_pos more]
    refine wp_peek v watch seen files trivial (only_fgetc byte) (fun t' same seen => ?_)
    dsimp only
    rw [wp_ret]
    refine ⟨⟨n + 1, more, ?_, seen, same ▸ file⟩, fun _ => ?_⟩
    · rw [BitVec.ofNat_add]
      rfl
    · simp only [toSeek]
      omega
  · rw [if_neg more, wp_ret]
    have reached : n = k.toNat := by omega
    exact ⟨i, by rw [reached], seen, file⟩

/-- Opening the partial file truncates it, or moves to the offset without touching it. -/
theorem openPartial_wp (watch : v.Watch guard) {k : UInt64} {B : List UInt8}
    (start : Start v.site v.data₀ v.ckpt₀ k B) (seen : v.At v.site.cwd v.data₀ v.ckpt₀ t) :
    Wp (Alone lib) guard total (openPartial v.site.resource_path k) t (Opened v k B) := by
  unfold openPartial
  simp only [Prog.bind_eq, Prog.pure_eq]
  cases start with
  | anew =>
      rw [if_pos rfl]
      rcases seen.view.ready.data with absent | ⟨i, file⟩
      · obtain ⟨parent, name, path, dir⟩ := seen.view.ready.parent
        obtain ⟨fs', made⟩ := Store.create_isSome dir (path ▸ absent)
        rw [← path, ← seen.target_data] at made
        refine wp_only_bind (only_fopen_create made)
          (watch _ _ _ _ _ seen.toSees .untouched trivial) ?_
        rw [seen.target_data] at made
        obtain ⟨file, view⟩ := seen.view.createData made
        rw [wp_ret]
        exact ⟨_, rfl, seen.moved (e := .fopen _ .wb) trivial _ view rfl, file⟩
      · have opens := file
        rw [← seen.target_data] at opens
        refine wp_only_bind (only_fopen_truncate opens)
          (watch _ _ _ _ _ seen.toSees .untouched trivial) ?_
        rw [wp_ret]
        exact ⟨i, rfl, seen.moved (e := .fopen _ .wb) trivial _ (seen.view.writeData file []) rfl, file⟩
  | resume usable some_offset =>
      obtain ⟨i, file, content⟩ := seen.data_file usable.data
      have opens := file
      rw [← seen.target_data] at opens
      rw [if_neg some_offset]
      refine wp_peek v watch seen .untouched trivial (only_fopen_file (by simp) opens)
        (fun t' same seen => ?_)
      refine wp_iterate (Seeking v i k B) (fun st _ => toSeek k st) ?_ ?_ ?_
      · rw [usable.data] at seen
        exact ⟨0, Nat.zero_le _, rfl, seen, same ▸ file⟩
      · rintro st t ⟨n, _, _, seen, _⟩
        exact watch _ _ _ _ _ seen.toSees (usable.data ▸ .untouched) trivial
      · intro st t seeking
        exact seekRound_wp watch usable.data usable.covered (v.accepts _ _ usable).2.2 seeking

end Opening

/-! ### Writing a checkpoint -/

section Checkpointing

variable {v} {total : Prop} {guard : SysTape lib → Option (Sys lib.md5.Ctx) → Prop}
  {t : SysTape lib} {d c : Option (List UInt8)}

/-- The temporary file is open and empty; the partial file is where it was. -/
structure TmpOpen (v : Delivery lib) (d c : Option (List UInt8)) (node : Option (Node Name))
    (j : Nat) (t : SysTape lib) : Prop extends v.At v.site.cwd d c t where
  tmp : t.world.fs.node (v.site.tmp v.hash) = some (.file j)
  same : t.world.fs.node v.site.data = node

theorem openTmp_wp {α : Type} (watch : v.Watch guard) (seen : v.At v.site.cwd d c t)
    (files : Files v.site v.F v.data₀ v.ckpt₀ d c) {f : Option Stream → L lib α}
    {post : α → SysTape lib → Prop}
    (next : ∀ j t', TmpOpen v d c (t.world.fs.node v.site.data) j t' → t'.world.fs.data j = [] →
      Wp (Alone lib) guard total (f (some (.opened j))) t' post) :
    Wp (Alone lib) guard total
      (Prog.bind (fopen (v.site.ckpt_resource_path v.hash ++ dotTmp) .wb) f) t post := by
  obtain ⟨j, fs', opens, view, file, empty, same⟩ := seen.view.openTmp seen.cwd
  refine wp_move v watch seen files trivial opens view rfl (fun t' here seen => ?_)
  apply next
  · exact ⟨seen, here ▸ file, here ▸ same⟩
  · exact here ▸ empty

/-- A checkpoint is published whole: until the rename the old one is there, after it the new one. -/
theorem writeCheckpoint_wp (watch : v.Watch guard) (seen : v.At v.site.cwd d c t)
    (files : Files v.site v.F v.data₀ v.ckpt₀ d c) {image : List UInt8}
    (size : image.length = sizeofCheckpoint) :
    Wp (Alone lib) guard total (writeCheckpoint image
        (v.site.ckpt_resource_path v.hash ++ dotTmp) (v.site.ckpt_resource_path v.hash)) t
      (fun r t' => r = (none, true) ∧ v.At v.site.cwd d (some image) t' ∧
        t'.world.fs.node v.site.data = t.world.fs.node v.site.data) := by
  unfold writeCheckpoint
  simp only [Prog.bind_eq, Prog.pure_eq]
  refine openTmp_wp watch seen files (fun j t₁ tmp empty => ?_)
  refine wp_write v watch tmp.toAt files (Nat.le_of_eq size.symm) rfl (fun n t₂ same₂ unhashed => ?_)
  have whole : image.take sizeofCheckpoint = image := by
    rw [← size, List.take_length]
  rw [whole] at same₂ ⊢
  dsimp only
  rw [if_neg (fun differs => differs rfl)]
  have view₂ := tmp.view.writeTmp tmp.tmp (splice (t₁.world.fs.data j) 0 (image.take n))
  have seen₂ : v.At v.site.cwd d c t₂ := by
    refine ⟨⟨?_, ?_⟩, unhashed⟩
    · rw [same₂]
      exact view₂
    · rw [same₂]
      exact tmp.cwd
  -- the record is in the temporary file once it has been flushed
  have flush : Only lib t₂.world (.fflush ((Stream.opened j).flushed image n))
      { Stream.opened j with pos := (Stream.opened j).pos + image.length, pending := [] }
      { t₁.world with fs := t₁.world.fs.setData j image } := by
    have stored : splice (t₁.world.fs.data j) 0 image = image := by
      rw [empty, splice_of_le (Nat.zero_le _), List.take_nil, List.drop_nil, List.nil_append,
        List.append_nil]
    have flush : Only lib (t₁.world.flushed (.opened j) image n) _ _
        { t₁.world with fs := t₁.world.fs.setData j (splice (t₁.world.fs.data j) 0 image) } :=
      only_fflush_written n (Nat.zero_le _)
    rw [same₂]
    rwa [stored] at flush
  refine wp_move v watch seen₂ files trivial flush (tmp.view.writeTmp tmp.tmp image)
    (by rw [same₂]; rfl) (fun t₃ same₃ seen₃ => ?_)
  refine wp_peek v watch seen₃ files trivial (only_fclose rfl) (fun t₄ same₄ seen₄ => ?_)
  have file : t₄.world.fs.node (v.site.tmp v.hash) = some (.file j) := by
    rw [same₄, same₃]
    exact tmp.tmp
  have content : t₄.world.fs.data j = image := by
    rw [same₄, same₃]
    exact Store.setData_data_self _ _ _
  obtain ⟨fs', renames, view₅, node⟩ := seen₄.view.publish seen₄.cwd file
  rw [content] at view₅
  refine wp_move v watch seen₄ files trivial renames view₅ rfl (fun t₅ same₅ seen₅ => ?_)
  rw [wp_ret]
  refine ⟨rfl, seen₅, ?_⟩
  rw [same₅]
  calc fs'.node v.site.data = t₄.world.fs.node v.site.data := node
    _ = t₁.world.fs.node v.site.data := by
        rw [same₄, same₃]
        rfl
    _ = t.world.fs.node v.site.data := tmp.same

end Checkpointing

/-! ### The packet loop -/

section Receiving

variable {v} {lossy total : Prop} {P' : Type} {proto : Protocol P' Schema.Val} {put : Phase → P'}
  {sender : Side} {k : UInt64} {B : List UInt8} {i : Nat}

/-- The head of the packet loop: the file has been received up to `m`, the checkpoint says so, and
    the sender is about to continue there. -/
structure Receiving (v : Delivery lib) (put : Phase → P') (k : UInt64) (B : List UInt8) (i m : Nat)
    (c : Option (List UInt8)) (st : Stream × UInt64 × UInt64) (s : Endpoint (SysTape lib) P') :
    Prop where
  pos : s.pos = put (Phase.rest v.hash m st.2.1)
  up : s.broken = false
  seen : v.At v.site.cwd (some (received B k.toNat v.F m)) c s.tape
  file : s.tape.world.fs.node v.site.data = some (.file i)
  ino : st.1.ino = i
  stream : st.1.pos = m
  pending : st.1.pending = []
  size : st.2.1.toNat = v.F.length - m
  offset : st.2.2 = .ofNat m
  ahead : k.toNat ≤ m
  inside : m ≤ v.F.length
  saved : Saved v.site v.ckpt₀ k.toNat m c

theorem Receiving.files {m : Nat} {c : Option (List UInt8)} {st : Stream × UInt64 × UInt64}
    {s : Endpoint (SysTape lib) P'} (start : Start v.site v.data₀ v.ckpt₀ k B)
    (rcv : Receiving v put k B i m c st s) :
    Files v.site v.F v.data₀ v.ckpt₀ (some (received B k.toNat v.F m)) c :=
  .writing start rcv.ahead (Nat.le_refl _) rcv.inside rcv.saved

/-- What the packet loop leaves: the whole file, or a connection that is down. -/
def Transferred (v : Delivery lib) (put : Phase → P') (lossy : Prop) (k : UInt64) (B : List UInt8)
    (r : Stream × Option Stream × Bool) (s : Endpoint (SysTape lib) P') : Prop :=
  r.1.pending = [] ∧ r.2.1 = none ∧
    ((r.2.2 = true ∧ s.pos = put (.verdict v.hash) ∧ s.broken = false ∧
      ∃ c, v.At v.site.cwd (some (received B k.toNat v.F v.F.length)) c s.tape ∧
        Saved v.site v.ckpt₀ k.toNat v.F.length c) ∨
    (r.2.2 = false ∧ lossy ∧ ∃ d c, v.At v.site.cwd d c s.tape ∧
      Files v.site v.F v.data₀ v.ckpt₀ d c))

/-- The record that is written after the packets up to `m`. -/
theorem record_image (site : Site) (m : Nat) :
    site.Record (.ofNat m) (Checkpoint.image
      { offset := .ofNat m, resource_path := strcpy site.mem.path site.resource_path }
      site.mem.padding) :=
  ⟨_, _, rfl, rfl, cstr_strcpy site.path_clean site.path_fits _⟩

/-- What a write of the next bytes does to the partial file, of which `j` bytes reach the kernel. -/
theorem append_view {m : Nat} {c : Option (List UInt8)} {w : World} {fp : Stream}
    (start : Start v.site v.data₀ v.ckpt₀ k B) (ahead : k.toNat ≤ m) (inside : m ≤ v.F.length)
    (view : View v.site v.hash (v.site.Lands lib v.hash v.found) v.found w.fs
      (some (received B k.toNat v.F m)) c)
    (file : w.fs.node v.site.data = some (.file fp.ino)) (stream : fp.pos = m) (n : Nat) :
    View v.site v.hash (v.site.Lands lib v.hash v.found) v.found
      (w.fs.setData fp.ino (splice (w.fs.data fp.ino) fp.pos ((v.F.drop m).take n)))
      (some (received B k.toNat v.F (m + n))) c := by
  have content : w.fs.data fp.ino = received B k.toNat v.F m := by
    have found := view.data
    rw [Store.fileAt_of_node file] at found
    exact Option.some.inj found
  rw [stream, content, received_add start.offset_le ahead inside]
  exact view.writeData file _

theorem recvRound_wp (carries : Carries proto put sender v.terms)
    (start : Start v.site v.data₀ v.ckpt₀ k B) {m : Nat} {c : Option (List UInt8)}
    {st : Stream × UInt64 × UInt64} {s : Endpoint (SysTape lib) P'}
    (rcv : Receiving v put k B i m c st s) :
    Wp (endpointSem proto sender.other lossy (Alone lib)) (v.guard proto sender.other) total
      (recvRound v.site.K v.site.mem (v.site.ckpt_resource_path v.hash) v.site.resource_path st) s
      (LoopPost total (fun st s => ∃ m c, Receiving v put k B i m c st s)
        (fun st _ => st.2.1.toNat) st.2.1.toNat (Transferred v put lossy k B)) := by
  obtain ⟨t, pos, b⟩ := s
  obtain ⟨fp, size, offset⟩ := st
  obtain ⟨rfl, rfl, seen, file, rfl, stream, pending, size_eq, rfl, ahead, inside, saved⟩ := rcv
  dsimp only at *
  have files : Files v.site v.F v.data₀ v.ckpt₀ (some (received B k.toNat v.F m)) c :=
    .writing start ahead (Nat.le_refl _) inside saved
  unfold recvRound
  simp only [Prog.bind_eq, Prog.pure_eq]
  refine wp_look v seen files trivial (only_remaining _) (fun t₁ same seen => ?_)
  rw [← same] at file
  by_cases zero : size = 0
  · rw [if_pos zero, wp_ret]
    subst zero
    have whole : m = v.F.length := by
      rw [show (0 : UInt64).toNat = 0 from rfl] at size_eq
      omega
    subst whole
    refine ⟨pending, rfl, Or.inl ⟨rfl, ?_, rfl, c, seen, saved⟩⟩
    rw [Phase.rest_zero]
  · rw [if_neg zero, Phase.rest_of_ne zero]
    refine wp_receive (p := .data v.hash m size) (k := .packet) carries
      (by rw [Side.other_other]; rfl) rfl ?_ ?_ ?_ ?_
    · intro obeys
      exact ⟨obeys, ⟨_, _, _, seen.toSees, files⟩, trivial⟩
    · intro _
      exact exists_packet lib v.site.K v.F m size
    · intro packet may
      obtain ⟨data_size, out, decrypted, payload⟩ := may
      have seen := seen.record (a := .recv .packet) (by simp) (some packet)
      rw [← Tape.record_world t₁ (.recv .packet) (some packet)] at file
      generalize t₁.record (.recv .packet) (some packet) = t₂ at seen file
      dsimp only
      rw [decrypted, Phase.next_data]
      dsimp only
      -- the packet carries the next `n` bytes of the file
      obtain ⟨n, length⟩ : ∃ n, n = (chunk v.F m size).length := ⟨_, rfl⟩
      have size_n : packet.data_size.toNat = n := by
        rw [data_size, toNat_length_chunk, length]
      have some_bytes : 0 < n ∧ n ≤ size.toNat ∧ n ≤ BUFFER_SIZE := by
        have counted := length_chunk v.F m size
        have positive : 0 < size.toNat := Nat.pos_of_ne_zero (fun none_left => zero (UInt64.toNat.inj none_left))
        have buffer : BUFFER_SIZE = 1024 := rfl
        omega
      have bytes : out.toList.take n = (v.F.drop m).take n := by
        rw [length, payload]
        exact chunk_eq_take v.F m size
      have fits : n ≤ out.toList.length := out.toList_length.symm ▸ some_bytes.2.2
      rw [size_n]
      refine wp_store v seen files fits pending (fun j t₃ same₃ unhashed => ?_)
      rw [bytes] at same₃ ⊢
      dsimp only
      rw [if_neg (fun failed => failed.1 rfl)]
      have part : ((v.F.drop m).take n).take j = (v.F.drop m).take (min j n) := List.take_take
      have view₃ := append_view start ahead inside seen.view file stream (min j n)
      rw [← part] at view₃
      have seen₃ : v.At v.site.cwd (some (received B k.toNat v.F (m + min j n))) c t₃ := by
        refine ⟨⟨?_, ?_⟩, unhashed⟩
        · rw [same₃]
          exact view₃
        · rw [same₃]
          exact seen.cwd
      have files₃ : Files v.site v.F v.data₀ v.ckpt₀
          (some (received B k.toNat v.F (m + min j n))) c :=
        .writing start ahead (Nat.le_add_right _ _) (by omega) saved
      have count : ((v.F.drop m).take n).length = n := by
        rw [← bytes, List.length_take, Nat.min_eq_left fits]
      have reached : fp.pos ≤ (t₂.world.fs.data fp.ino).length := by
        obtain ⟨i, here, content⟩ := seen.data_file rfl
        rw [file] at here
        cases here
        rw [content, length_received start.offset_le ahead inside, stream]
        exact Nat.le_max_right _ _
      have flush : Only lib t₃.world (.fflush (fp.flushed ((v.F.drop m).take n) j))
          { fp with pos := fp.pos + n, pending := [] }
          { t₂.world with
            fs := t₂.world.fs.setData fp.ino
              (splice (t₂.world.fs.data fp.ino) fp.pos ((v.F.drop m).take n)) } := by
        have flush := @only_fflush_written lib _ _ ((v.F.drop m).take n) j reached
        rw [same₃]
        rwa [count] at flush
      refine wp_act v seen₃ files₃ trivial flush
        (append_view start ahead inside seen.view file stream n) (by rw [same₃]; rfl)
        (fun t₄ same₄ seen₄ => ?_)
      have files₄ : Files v.site v.F v.data₀ v.ckpt₀ (some (received B k.toNat v.F (m + n))) c :=
        .writing start ahead (Nat.le_add_right _ _) (by omega) saved
      have next : UInt64.ofNat m + packet.data_size = .ofNat (m + n) := by
        rw [data_size, ← length, UInt64.ofNat_add]
      have left : (size - packet.data_size).toNat = size.toNat - n := by
        rw [UInt64.toNat_sub_of_le, size_n]
        exact UInt64.le_iff_toNat_le.mpr (size_n ▸ some_bytes.2.1)
      rw [next]
      apply wp_loc_bind
      refine wp_mono (writeCheckpoint_wp v.watch_guard seen₄ files₄ (Checkpoint.length_image _ _)) ?_
      rintro _ t₅ ⟨rfl, seen₅, node⟩
      dsimp only
      rw [if_pos rfl, wp_ret]
      refine ⟨⟨m + n, _, ?_, rfl, seen₅, ?_, rfl, ?_, rfl, ?_, rfl, ?_, ?_, ?_⟩, fun _ => ?_⟩
      · rfl
      · rw [node, same₄]
        exact file
      · exact congrArg (· + n) stream
      · dsimp only
        omega
      · exact Nat.le_add_right_of_le ahead
      · omega
      · exact Or.inr ⟨_, rfl, record_image v.site (m + n)⟩
      · dsimp only
        omega
    · intro lost
      rw [wp_ret]
      exact ⟨pending, rfl, Or.inr ⟨rfl, lost, _, c, seen.record (by simp) _, files⟩⟩

theorem recvLoop_wp (carries : Carries proto put sender v.terms)
    (start : Start v.site v.data₀ v.ckpt₀ k B) {m : Nat} {c : Option (List UInt8)}
    {st : Stream × UInt64 × UInt64} {s : Endpoint (SysTape lib) P'}
    (rcv : Receiving v put k B i m c st s) :
    Wp (endpointSem proto sender.other lossy (Alone lib)) (v.guard proto sender.other) total
      (Prog.iterate (recvRound v.site.K v.site.mem (v.site.ckpt_resource_path v.hash)
        v.site.resource_path) st) s (Transferred v put lossy k B) := by
  refine wp_iterate (fun st s => ∃ m c, Receiving v put k B i m c st s)
    (fun st _ => st.2.1.toNat) ⟨m, c, rcv⟩ ?_ ?_
  · rintro st s ⟨m, c, rcv⟩
    exact ⟨trivial, ⟨_, _, _, rcv.seen.toSees, rcv.files start⟩, trivial⟩
  · rintro st s ⟨m, c, rcv⟩
    exact recvRound_wp carries start rcv

/-- The end of a transfer closes what is open and leaves the files alone. -/
theorem transferCleanUp_wp {guard : SysTape lib → Option (Sys lib.md5.Ctx) → Prop}
    (watch : v.Watch guard) {cwd : Loc} {d c : Option (List UInt8)} {t : SysTape lib}
    (seen : v.At cwd d c t) (files : Files v.site v.F v.data₀ v.ckpt₀ d c) {fp : Stream}
    (closed : fp.pending = []) (status : Int) :
    Wp (Alone lib) guard total (transferCleanUp (some fp) none status) t
      (fun r t' => r = status ∧ v.At cwd d c t') := by
  unfold transferCleanUp closeIf
  simp only [Prog.bind_eq, Prog.pure_eq, Prog.ret_bind]
  refine wp_peek v watch seen files trivial (only_fclose closed) (fun t₁ _ seen => ?_)
  refine wp_peek v watch seen files trivial (only_setRcvTimeout _) (fun t₂ _ seen => ?_)
  rw [if_pos rfl, wp_ret]
  exact ⟨rfl, seen⟩

/-- What `filerail_recvfile` leaves. -/
def ReceivedAll (v : Delivery lib) (put : Phase → P') (lossy : Prop) (k : UInt64) (B : List UInt8)
    (r : Int) (s : Endpoint (SysTape lib) P') : Prop :=
  (r = 0 ∧ s.pos = put (.verdict v.hash) ∧ s.broken = false ∧
    ∃ c, v.At v.site.cwd (some (received B k.toNat v.F v.F.length)) c s.tape ∧
      Saved v.site v.ckpt₀ k.toNat v.F.length c) ∨
  (r = -1 ∧ lossy ∧ ∃ d c, v.At v.site.cwd d c s.tape ∧ Files v.site v.F v.data₀ v.ckpt₀ d c)

theorem offset_inside (start : Start v.site v.data₀ v.ckpt₀ k B) :
    k.toNat ≤ v.F.length := by
  cases start with
  | anew => exact Nat.zero_le _
  | resume usable _ => exact (v.accepts _ _ usable).2.1

theorem recvfile_wp (carries : Carries proto put sender v.terms)
    (start : Start v.site v.data₀ v.ckpt₀ k B) {t : SysTape lib}
    (seen : v.At v.site.cwd v.data₀ v.ckpt₀ t) :
    Wp (endpointSem proto sender.other lossy (Alone lib)) (v.guard proto sender.other) total
      (recvfile v.site.mem v.site.resource_path v.site.K k (v.site.ckpt_resource_path v.hash)
        v.site.resource_path) ⟨t, put (.header v.hash k), false⟩ (ReceivedAll v put lossy k B) := by
  have inside : k.toNat ≤ v.F.length := offset_inside start
  unfold recvfile
  simp only [Prog.bind_eq]
  apply wp_loc_bind
  refine wp_mono (openPartial_wp v.watch_guard start seen) ?_
  rintro _ t₁ ⟨i, rfl, seen, file⟩
  dsimp only
  rw [if_pos rfl]
  have files : Files v.site v.F v.data₀ v.ckpt₀ (some B) v.ckpt₀ := by
    have writing := Files.writing start (Nat.le_refl _) (Nat.le_refl _) inside (Or.inl ⟨rfl, rfl⟩)
    rwa [received_self] at writing
  refine wp_receive (p := .header v.hash k) (k := .resource) carries
    (by rw [Side.other_other]; rfl) rfl ?_ ?_ ?_ ?_
  · intro obeys
    exact ⟨obeys, ⟨_, _, _, seen.toSees, files⟩, trivial⟩
  · intro _
    exact ⟨⟨.ofNat v.F.length, pad _ [], pad _ []⟩, rfl⟩
  · intro resource may
    have seen := seen.record (a := .recv .resource) (by simp) (some resource)
    rw [← Tape.record_world t₁ (.recv .resource) (some resource)] at file
    generalize t₁.record (.recv .resource) (some resource) = t₂ at seen file
    have all : resource.resource_size = .ofNat v.F.length := may
    have size : (resource.resource_size - k).toNat = v.F.length - k.toNat := by
      have whole : (UInt64.ofNat v.F.length).toNat = v.F.length := by
        rw [UInt64.toNat_ofNat', Nat.mod_eq_of_lt v.small]
      rw [all, UInt64.toNat_sub_of_le, whole]
      exact UInt64.le_iff_toNat_le.mpr (whole.symm ▸ inside)
    rw [Phase.next_header]
    dsimp only
    refine wp_look v seen files trivial (only_setRcvTimeout _) (fun t₃ same seen => ?_)
    rw [← same] at file
    rw [if_pos rfl]
    have rcv : Receiving v put k B i k.toNat v.ckpt₀
        ({ Stream.opened i with pos := k.toNat }, resource.resource_size - k, k)
        ⟨t₃, put (Phase.rest v.hash k.toNat (resource.resource_size - k)), false⟩ := by
      refine ⟨rfl, rfl, ?_, file, rfl, rfl, rfl, size, ?_, Nat.le_refl _, inside, Or.inl ⟨rfl, rfl⟩⟩
      · rw [received_self]
        exact seen
      · exact UInt64.ofNat_toNat.symm
    apply wp_bind
    refine wp_mono (recvLoop_wp carries start rcv) ?_
    rintro ⟨fp, fckpt, ok⟩ ⟨t₄, p, b⟩ ⟨closed, rfl, whole | down⟩
    · obtain ⟨rfl, rfl, rfl, c, seen, saved⟩ := whole
      apply wp_endpoint_loc
      refine wp_mono (transferCleanUp_wp v.watch_guard seen
        (.writing start inside (Nat.le_refl _) (Nat.le_refl _) saved) closed _) ?_
      rintro _ t₅ ⟨rfl, seen⟩
      exact Or.inl ⟨rfl, rfl, rfl, c, seen, saved⟩
    · obtain ⟨rfl, lost, d, c, seen, files⟩ := down
      apply wp_endpoint_loc
      refine wp_mono (transferCleanUp_wp v.watch_guard seen files closed _) ?_
      rintro _ t₅ ⟨rfl, seen⟩
      exact Or.inr ⟨rfl, lost, d, c, seen, files⟩
  · intro lost
    apply wp_endpoint_loc
    refine wp_mono (transferCleanUp_wp v.watch_guard (seen.record (by simp) _) files rfl _) ?_
    rintro _ t₂ ⟨rfl, seen⟩
    exact Or.inr ⟨rfl, lost, _, _, seen, files⟩

end Receiving

end Delivery

end Filerail
