import ClassFormat.Attribute.Basic

/-! How an attribute table comes about. Attributes are put into it one after the other, and
one that has the name of an earlier one takes its place. -/
namespace ClassFormat.Table

/-- A table's entries after those written later. -/
def collect (entries written : List Attribute) : List Attribute :=
  written.foldl (fun entries later => insert later entries) entries

theorem mem_insert_self (later : Attribute) (entries : List Attribute) :
    later ∈ insert later entries := by
  induction entries with
  | nil => exact List.mem_singleton.mpr rfl
  | cons earlier rest ih =>
    unfold insert
    split
    next => exact List.mem_cons_self
    next => exact List.mem_cons_of_mem _ ih

theorem mem_of_mem_insert {later found : Attribute} {entries : List Attribute}
    (member : found ∈ insert later entries) : found = later ∨ found ∈ entries := by
  induction entries with
  | nil => exact .inl (List.mem_singleton.mp member)
  | cons earlier rest ih =>
    unfold insert at member
    split at member
    next =>
      rcases List.mem_cons.mp member with rfl | old
      · exact .inl rfl
      · exact .inr (List.mem_cons_of_mem _ old)
    next =>
      rcases List.mem_cons.mp member with rfl | deeper
      · exact .inr List.mem_cons_self
      · exact (ih deeper).imp_right (List.mem_cons_of_mem _)

theorem insert_new {later : Attribute} {entries : List Attribute}
    (new : later.name ∉ entries.map Attribute.name) : insert later entries = entries ++ [later] := by
  induction entries with
  | nil => rfl
  | cons earlier rest ih =>
    simp only [List.map_cons, List.mem_cons, not_or] at new
    rw [insert, if_neg (Ne.symm new.1), ih new.2, List.cons_append]

theorem names_insert_old {later : Attribute} {entries : List Attribute}
    (old : later.name ∈ entries.map Attribute.name) :
    (insert later entries).map Attribute.name = entries.map Attribute.name := by
  induction entries with
  | nil => cases old
  | cons earlier rest ih =>
    unfold insert
    split
    next same => rw [List.map_cons, List.map_cons, same]
    next other =>
      have deeper : later.name ∈ rest.map Attribute.name := by
        rcases List.mem_cons.mp old with same | deeper
        · exact absurd same.symm other
        · exact deeper
      rw [List.map_cons, List.map_cons, ih deeper]

theorem names_insert_nodup {later : Attribute} {entries : List Attribute}
    (distinct : (entries.map Attribute.name).Nodup) :
    ((insert later entries).map Attribute.name).Nodup := by
  by_cases old : later.name ∈ entries.map Attribute.name
  · rw [names_insert_old old]
    exact distinct
  · rw [insert_new old, List.map_append, List.nodup_append]
    refine ⟨distinct, by simp, ?_⟩
    rintro name listed _ (_ | ⟨_, ⟨⟩⟩) rfl
    exact old listed

theorem length_insert_old {later : Attribute} {entries : List Attribute}
    (old : later.name ∈ entries.map Attribute.name) :
    (insert later entries).length = entries.length := by
  simpa using congrArg List.length (names_insert_old old)

theorem mem_of_mem_collect {found : Attribute} {entries written : List Attribute}
    (member : found ∈ collect entries written) : found ∈ entries ∨ found ∈ written := by
  induction written generalizing entries with
  | nil => exact .inl member
  | cons later rest ih =>
    rcases ih member with early | late
    · rcases mem_of_mem_insert early with rfl | old
      · exact .inr List.mem_cons_self
      · exact .inl old
    · exact .inr (List.mem_cons_of_mem _ late)

/-- Nothing comes after the last attribute to take its place. -/
theorem last_mem_collect (entries written : List Attribute) (last : Attribute) :
    last ∈ collect entries (written ++ [last]) := by
  rw [collect, List.foldl_append]
  exact mem_insert_self last _

theorem names_collect_nodup {entries : List Attribute} (written : List Attribute)
    (distinct : (entries.map Attribute.name).Nodup) :
    ((collect entries written).map Attribute.name).Nodup := by
  induction written generalizing entries with
  | nil => exact distinct
  | cons later rest ih => exact ih (names_insert_nodup distinct)

theorem length_collect_le (entries written : List Attribute) :
    (collect entries written).length ≤ entries.length + written.length := by
  induction written generalizing entries with
  | nil => exact Nat.le_refl _
  | cons later rest ih =>
    refine Nat.le_trans (ih (insert later entries)) ?_
    by_cases old : later.name ∈ entries.map Attribute.name
    · rw [length_insert_old old, List.length_cons]
      omega
    · rw [insert_new old]
      simp only [List.length_append, List.length_cons, List.length_nil]
      omega

/-- A table that has as many entries as were written has kept them all in their order. -/
theorem collect_of_length {entries written : List Attribute}
    (all : (collect entries written).length = entries.length + written.length) :
    collect entries written = entries ++ written := by
  induction written generalizing entries with
  | nil => exact (List.append_nil _).symm
  | cons later rest ih =>
    rw [List.length_cons] at all
    by_cases old : later.name ∈ entries.map Attribute.name
    · have bound := length_collect_le (insert later entries) rest
      rw [length_insert_old old] at bound
      change (collect (insert later entries) rest).length = _ at all
      omega
    · change (collect (insert later entries) rest).length = _ at all
      change collect (insert later entries) rest = _
      rw [insert_new old] at all ⊢
      rw [ih (by simp only [List.length_append, List.length_singleton]; omega)]
      simp

/-- Attributes of different names are all kept. -/
theorem collect_of_nodup (entries : List Attribute) {written : List Attribute}
    (distinct : ((entries ++ written).map Attribute.name).Nodup) :
    collect entries written = entries ++ written := by
  induction written generalizing entries with
  | nil => exact (List.append_nil _).symm
  | cons later rest ih =>
    change collect (insert later entries) rest = _
    have new : later.name ∉ entries.map Attribute.name := by
      intro old
      rw [List.map_append, List.nodup_append] at distinct
      exact distinct.2.2 _ old _ List.mem_cons_self rfl
    rw [insert_new new, ih _ (by simpa using distinct)]
    simp

end ClassFormat.Table
