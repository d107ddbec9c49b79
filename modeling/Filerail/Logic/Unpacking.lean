/-
Module: Filerail.Logic.Unpacking
Layer: Logic (general library)
Purpose: Unpacking an archive into an empty directory. If no entry lies on the way to another, the
  unpacking succeeds, and what is then below the directory is determined: the entries, each with its
  bytes, and a directory wherever an entry lies further down. Nothing else says that there is a
  directory.
Imports: Filerail.Logic.FileStore
Main exports: Store.Apart, Store.Unpacked, Store.extract_empty
-/
import Filerail.Logic.FileStore

namespace FileStore

namespace Store

variable {ν β : Type} {s : Store ν β}

/-- What lies above a name is there. -/
theorem named_above {p l : List ν} (named : s.node l ≠ none) (above : p <+: l) :
    s.node p ≠ none := by
  by_cases same : p = l
  · rw [same]
    exact named
  · rw [s.dir_above named above same]
    simp

section Places

variable [DecidableEq ν]

theorem mkdir_isSome {p : List ν} {n : ν} (dir : s.node p = some .dir)
    (absent : s.node (p ++ [n]) = none) : ∃ s', s.mkdir (p ++ [n]) = some s' := by
  unfold mkdir
  simp only [parent_append]
  rw [dif_pos dir, dif_pos absent]
  exact ⟨_, rfl⟩

/-- One directory on the way. -/
theorem ensureDir_isSome {p : List ν} {n : ν} (dir : s.node p = some .dir)
    (clear : s.node (p ++ [n]) = some .dir ∨ s.node (p ++ [n]) = none) :
    ∃ s', s.ensureDir (p ++ [n]) = some s' ∧ s'.node (p ++ [n]) = some .dir ∧
      ∀ l, l ≠ p ++ [n] → s'.node l = s.node l := by
  unfold ensureDir
  cases clear with
  | inl here =>
      rw [if_pos here]
      exact ⟨s, rfl, here, fun _ _ => rfl⟩
  | inr absent =>
      have new : s.node (p ++ [n]) ≠ some .dir := by
        rw [absent]
        simp
      rw [if_neg new]
      obtain ⟨s', made⟩ := mkdir_isSome dir absent
      obtain ⟨_, _, node, _⟩ := mkdir_eq_some made
      apply Exists.intro s'
      rw [node, Function.update_self]
      constructor
      · exact made
      · constructor
        · rfl
        · intro l other
          rw [Function.update_of_ne other]

/-- Where nothing but directories is in the way, all directories can be made. -/
theorem mkdirs_isSome {base rest : List ν} (dir : s.node base = some .dir)
    (clear : ∀ p, p <+: rest → s.node (base ++ p) = some .dir ∨ s.node (base ++ p) = none) :
    ∃ s', s.mkdirs base rest = some s' ∧ (∀ l, l <+: base ++ rest → s'.node l = some .dir) ∧
      ∀ l, ¬ l <+: base ++ rest → s'.node l = s.node l := by
  induction rest generalizing s base with
  | nil =>
      rw [List.append_nil]
      apply Exists.intro s
      constructor
      · rfl
      · constructor
        · intro l above
          by_cases same : l = base
          · rw [same]
            exact dir
          · apply s.dir_above _ above same
            rw [dir]
            simp
        · intro l _
          rfl
  | cons n rest ih =>
      have first := clear [n] (List.prefix_append [n] rest)
      obtain ⟨s₁, made, here, same⟩ := ensureDir_isSome dir first
      have clear₁ : ∀ p, p <+: rest →
          s₁.node (base ++ [n] ++ p) = some .dir ∨ s₁.node (base ++ [n] ++ p) = none := by
        intro p above
        by_cases top : base ++ [n] ++ p = base ++ [n]
        · rw [top]
          exact Or.inl here
        · rw [same _ top, List.append_assoc]
          apply clear
          exact List.cons_prefix_cons.mpr ⟨rfl, above⟩
      obtain ⟨s', makes, dirs, others⟩ := ih here clear₁
      have split : base ++ n :: rest = base ++ [n] ++ rest := by simp
      rw [split]
      refine ⟨s', ?_, dirs, ?_⟩
      · rw [mkdirs, made]
        exact makes
      · intro l apart
        rw [others l apart]
        apply same
        rintro rfl
        exact apart (List.prefix_append _ _)

/-- An entry finds its place if no file is in its way and its name is free. -/
theorem place_isSome (bs : List β) {p : List ν} {n : ν}
    (clear : ∀ q, q <+: p → s.node q = some .dir ∨ s.node q = none)
    (absent : s.node (p ++ [n]) = none) :
    ∃ s', s.place (p ++ [n], bs) = some s' ∧ (∀ q, q <+: p → s'.node q = some .dir) ∧
      s'.fileAt (p ++ [n]) = some bs ∧
      ∀ q, ¬ q <+: p → q ≠ p ++ [n] → s'.node q = s.node q := by
  obtain ⟨s₁, dirs, way, others⟩ : ∃ s₁, s.mkdirs [] p = some s₁ ∧
      (∀ l, l <+: p → s₁.node l = some .dir) ∧ ∀ l, ¬ l <+: p → s₁.node l = s.node l :=
    mkdirs_isSome s.root_dir clear
  have off : ¬ p ++ [n] <+: p := by
    intro above
    have short := above.length_le
    rw [List.length_append, List.length_singleton] at short
    omega
  have absent₁ : s₁.node (p ++ [n]) = none := by
    rw [others _ off]
    exact absent
  have stays : s₁.follow maxLinks (p ++ [n]) = p ++ [n] := Plain.follow (Or.inl absent₁) maxLinks
  obtain ⟨s₂, made⟩ := create_isSome (way p List.prefix_rfl) absent₁
  have puts : s₁.putFile (p ++ [n]) bs = some (s₂.setData s₁.next bs) := by
    unfold putFile
    rw [absent₁]
    simp only
    rw [made]
    rfl
  have places : s.place (p ++ [n], bs) = some (s₂.setData s₁.next bs) := by
    unfold place
    dsimp only
    rw [List.dropLast_concat, dirs, Option.bind_some, stays]
    exact puts
  obtain ⟨here, _, frame⟩ := create_spec made
  refine ⟨_, places, ?_, fileAt_setData here bs, ?_⟩
  · intro q above
    have other : q ≠ p ++ [n] := by
      rintro rfl
      exact off above
    exact (frame q other).1.trans (way q above)
  · intro q apart other
    exact (frame q other).1.trans (others q apart)

/-- An entry that was put in its place is there. -/
theorem place_fileAt {s' : Store ν β} {entry : List ν × List β} (placed : s.place entry = some s') :
    s'.fileAt (s.follow maxLinks entry.1) = some entry.2 := by
  obtain ⟨s₁, dirs, put⟩ := Option.bind_eq_some_iff.mp placed
  rw [← (extends_mkdirs dirs (fun _ => False)).follow_eq]
  exact (extends_putFile put (fun _ => False)).2

/-- What was unpacked is there, as long as no two entries land on the same place. -/
theorem extract_fileAt {s' : Store ν β} {entries : List (List ν × List β)}
    (extracted : s.extract entries = some s')
    (distinct : entries.Pairwise (fun a b => s.follow maxLinks a.1 ≠ s.follow maxLinks b.1))
    {e : List ν × List β} (member : e ∈ entries) : s'.fileAt (s.follow maxLinks e.1) = some e.2 := by
  induction entries generalizing s with
  | nil => cases member
  | cons first rest ih =>
      obtain ⟨s₁, placed, others⟩ := Option.bind_eq_some_iff.mp extracted
      obtain ⟨other, distinct⟩ := List.pairwise_cons.mp distinct
      have links := (unpacks_place placed).follow_eq maxLinks
      cases member with
      | head =>
          have off : ¬ s₁.Lands rest (s.follow maxLinks e.1) := by
            rintro ⟨e', member, lands⟩
            rw [links] at lands
            exact other e' member lands.symm
          rw [(unpacks_extract others).fileAt_eq off]
          exact place_fileAt placed
      | tail _ member =>
          rw [← links]
          apply ih others _ member
          simp only [links]
          exact distinct

end Places

/-! ### A whole archive -/

/-- Neither entry lies on the way to the other. -/
def Apart (a b : List ν × List β) : Prop :=
  ¬ a.1 <+: b.1 ∧ ¬ b.1 <+: a.1

/-- Below the directory there is what the entries ask for and nothing else. -/
structure Unpacked (d : List ν) (entries : List (List ν × List β)) (s : Store ν β) : Prop where
  dir : s.node d = some .dir
  dirs : ∀ rest, rest ≠ [] → (s.node (d ++ rest) = some .dir ↔ Passes entries (d ++ rest))
  files : ∀ rest bs, s.fileAt (d ++ rest) = some bs ↔ (d ++ rest, bs) ∈ entries
  plain : ∀ rest x, s.node (d ++ rest) = some x → x = .dir ∨ ∃ i, x = .file i

namespace Unpacked

variable {d : List ν} {entries : List (List ν × List β)}

/-- Before anything is unpacked. -/
theorem nil (dir : s.node d = some .dir) (empty : ∀ n, s.node (d ++ [n]) = none) :
    Unpacked d [] s := by
  have bare : ∀ rest, rest ≠ [] → s.node (d ++ rest) = none := by
    intro rest some_rest
    obtain ⟨n, below, rfl⟩ := List.exists_cons_of_ne_nil some_rest
    by_contra named
    cases below with
    | nil => exact named (empty n)
    | cons m below =>
        have above : d ++ [n] <+: d ++ n :: m :: below := by
          rw [List.prefix_append_right_inj]
          exact List.prefix_append [n] (m :: below)
        have impossible := s.dir_above named above (by simp)
        rw [empty n] at impossible
        cases impossible
  constructor
  · exact dir
  · intro rest some_rest
    rw [bare rest some_rest]
    constructor
    · intro impossible
      cases impossible
    · rintro ⟨_, none_there, _⟩
      cases none_there
  · intro rest bs
    constructor
    · intro file
      by_cases top : rest = []
      · subst top
        rw [List.append_nil] at file
        simp [fileAt, dir] at file
      · rw [fileAt_of_absent (bare rest top)] at file
        cases file
    · intro none_there
      cases none_there
  · intro rest x here
    by_cases top : rest = []
    · subst top
      rw [List.append_nil, dir] at here
      exact Or.inl (Option.some.inj here).symm
    · rw [bare rest top] at here
      cases here

/-- A name at which nothing was unpacked, nor further down, is free. -/
theorem absent (unpacked : Unpacked d entries s) {rest : List ν} (some_rest : rest ≠ [])
    (apart : ∀ e ∈ entries, ¬ d ++ rest <+: e.1) : s.node (d ++ rest) = none := by
  cases here : s.node (d ++ rest) with
  | none => rfl
  | some x =>
      exfalso
      rcases unpacked.plain rest x here with rfl | ⟨i, rfl⟩
      · obtain ⟨e, member, above⟩ := (unpacked.dirs rest some_rest).mp here
        exact apart e member (above.trans (List.dropLast_prefix e.1))
      · have file := (unpacked.files rest _).mp (fileAt_of_node here)
        exact apart _ file List.prefix_rfl

/-- What one more entry asks for. -/
theorem passes_concat {l q : List ν} {n : ν} {bs : List β} :
    Passes (entries ++ [(l ++ [n], bs)]) q ↔ Passes entries q ∨ q <+: l := by
  constructor
  · rintro ⟨e, member, on_way⟩
    rw [List.mem_append, List.mem_singleton] at member
    rcases member with old | rfl
    · exact Or.inl ⟨e, old, on_way⟩
    · rw [List.dropLast_concat] at on_way
      exact Or.inr on_way
  · rintro (⟨e, member, on_way⟩ | on_way)
    · exact ⟨e, List.mem_append_left _ member, on_way⟩
    · refine ⟨(l ++ [n], bs), by simp, ?_⟩
      rw [List.dropLast_concat]
      exact on_way

/-- No file is on the way to an entry that is apart from the others. -/
theorem clear_above (unpacked : Unpacked d entries s) {rest : List ν}
    (apart : ∀ e ∈ entries, ¬ e.1 <+: d ++ rest) {q : List ν} (above : q <+: d ++ rest) :
    s.node q = some .dir ∨ s.node q = none := by
  cases here : s.node q with
  | none => exact Or.inr rfl
  | some x =>
      left
      rcases List.prefix_or_prefix_of_prefix above (List.prefix_append d rest) with up | ⟨r, rfl⟩
      · by_cases top : q = d
        · rw [← here, top]
          exact unpacked.dir
        · rw [← here]
          apply s.dir_above _ up top
          rw [unpacked.dir]
          simp
      · rcases unpacked.plain r x here with rfl | ⟨i, rfl⟩
        · rfl
        · have file := (unpacked.files r _).mp (fileAt_of_node here)
          exact absurd above (apart _ file)

section Places

variable [DecidableEq ν]

/-- Unpacking one more entry. -/
theorem place (unpacked : Unpacked d entries s) {rest : List ν} {n : ν} {bs : List β}
    (apart : ∀ e ∈ entries, Apart e (d ++ rest ++ [n], bs)) :
    ∃ s', s.place (d ++ rest ++ [n], bs) = some s' ∧
      Unpacked d (entries ++ [(d ++ rest ++ [n], bs)]) s' := by
  have free : s.node (d ++ rest ++ [n]) = none := by
    rw [List.append_assoc]
    apply unpacked.absent (by simp)
    intro e member
    rw [← List.append_assoc]
    exact (apart e member).2
  have clear : ∀ q, q <+: d ++ rest → s.node q = some .dir ∨ s.node q = none := by
    intro q above
    apply unpacked.clear_above _ above
    intro e member on_way
    exact (apart e member).1 (on_way.trans (List.prefix_append _ _))
  obtain ⟨s', placed, way, file, others⟩ := place_isSome bs clear free
  have ext := unpacks_place placed
  have stays : s.follow maxLinks (d ++ rest ++ [n]) = d ++ rest ++ [n] :=
    Plain.follow (Or.inl free) maxLinks
  refine ⟨s', placed, way d (List.prefix_append d rest), ?_, ?_, ?_⟩
  · intro r some_r
    rw [passes_concat, ← unpacked.dirs r some_r]
    by_cases above : d ++ r <+: d ++ rest
    · rw [way _ above]
      simp [above]
    · by_cases there : d ++ r = d ++ rest ++ [n]
      · obtain ⟨i, node, _⟩ := fileAt_eq_some_iff.mp file
        rw [there, node, free, ← there]
        simp [above]
      · rw [others _ above there]
        simp [above]
  · intro r bs'
    rw [List.mem_append, List.mem_singleton]
    by_cases there : d ++ r = d ++ rest ++ [n]
    · rw [there, file]
      constructor
      · intro same
        cases same
        exact Or.inr rfl
      · rintro (old | new)
        · exact absurd List.prefix_rfl (apart _ old).1
        · cases new
          rfl
    · have away : ¬ s.Lands [(d ++ rest ++ [n], bs)] (d ++ r) := by
        rintro ⟨e, member, lands⟩
        rw [List.mem_singleton.mp member, stays] at lands
        exact there lands.symm
      rw [ext.fileAt_eq away, unpacked.files]
      constructor
      · intro old
        exact Or.inl old
      · rintro (old | new)
        · exact old
        · exact absurd (congrArg Prod.fst new) there
  · intro r x here
    by_cases above : d ++ r <+: d ++ rest
    · rw [way _ above] at here
      exact Or.inl (Option.some.inj here).symm
    · by_cases there : d ++ r = d ++ rest ++ [n]
      · obtain ⟨i, node, _⟩ := fileAt_eq_some_iff.mp file
        rw [there, node] at here
        exact Or.inr ⟨i, (Option.some.inj here).symm⟩
      · rw [others _ above there] at here
        exact unpacked.plain r x here

/-- Unpacking the rest of the entries. -/
theorem extract {todo : List (List ν × List β)} (unpacked : Unpacked d entries s)
    (inside : ∀ e ∈ todo, ∃ rest n, e.1 = d ++ rest ++ [n])
    (apart : (entries ++ todo).Pairwise Apart) :
    ∃ s', s.extract todo = some s' ∧ Unpacked d (entries ++ todo) s' := by
  induction todo generalizing s entries with
  | nil =>
      rw [List.append_nil]
      exact ⟨s, rfl, unpacked⟩
  | cons e todo ih =>
      obtain ⟨l, bs⟩ := e
      obtain ⟨rest, n, rfl⟩ := inside _ List.mem_cons_self
      have fresh : ∀ e ∈ entries, Apart e (d ++ rest ++ [n], bs) := by
        intro e member
        exact (List.pairwise_append.mp apart).2.2 e member _ List.mem_cons_self
      obtain ⟨s₁, first, unpacked₁⟩ := unpacked.place fresh
      rw [List.append_cons entries _ todo] at apart ⊢
      obtain ⟨s', others, unpacked'⟩ := ih unpacked₁
        (fun e member => inside e (List.mem_cons_of_mem _ member)) apart
      refine ⟨s', ?_, unpacked'⟩
      rw [Store.extract, first]
      exact others

end Places

end Unpacked

/-- Unpacking into an empty directory succeeds and is exact. -/
theorem extract_empty [DecidableEq ν] {d : List ν} {entries : List (List ν × List β)} (dir : s.node d = some .dir)
    (empty : ∀ n, s.node (d ++ [n]) = none)
    (inside : ∀ e ∈ entries, ∃ rest n, e.1 = d ++ rest ++ [n]) (apart : entries.Pairwise Apart) :
    ∃ s', s.extract entries = some s' ∧ Unpacked d entries s' :=
  (Unpacked.nil dir empty).extract inside apart

end Store

end FileStore
