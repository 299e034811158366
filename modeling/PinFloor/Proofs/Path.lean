import Mathlib.Data.List.Basic
import Mathlib.Data.List.Induction
import PinFloor.FileSystem

/-! # Normalized paths

The path of some names, after the root or without it, is normalized. Going up from it drops the last
name, and a file in the directory has one name more: so another file that is named in a file has that
name instead of the last one. The absolute form of an absolute path is the path itself.
-/

namespace PinFloor.Path

/-- A name between the slashes of a normalized path. -/
def IsName (n : String) : Prop :=
  n ∉ ["", ".", ".."] ∧ '/' ∉ n.toList

instance (n : String) : Decidable (IsName n) :=
  inferInstanceAs (Decidable (_ ∧ _))

/-- The absolute path of some names. -/
def ofNames (names : List String) : Path :=
  ⟨"/" ++ joinSegments names⟩

variable {n : String} {names : List String}

theorem IsName.ne_nil (name : IsName n) : n.toList ≠ [] := by
  intro empty
  have same : n = "" := String.toList_eq_nil_iff.mp empty
  exact name.1 (by simp [same])

theorem partOf?_name (name : IsName n) : partOf? n = some (.name n) := by
  have apart : n ≠ "" ∧ n ≠ "." ∧ n ≠ ".." := by simpa using name.1
  simp [partOf?, apart]

theorem toList_joinSegments (names : List String) :
    (joinSegments names).toList = ['/'].intercalate (names.map String.toList) := by
  simp [joinSegments]

theorem toList_ofNames (names : List String) :
    (ofNames names).text.toList = '/' :: (joinSegments names).toList := by
  simp [ofNames]

theorem isAbsolute_ofNames (names : List String) : (ofNames names).isAbsolute = true := by
  simp [isAbsolute, toList_ofNames]

/-! ## Segments -/

theorem segments_joinSegments (plain : ∀ s ∈ names, '/' ∉ s.toList) (some : names ≠ []) :
    (⟨joinSegments names⟩ : Path).segments = names := by
  have split : (joinSegments names).toList.splitOn '/' = names.map String.toList := by
    rw [toList_joinSegments]
    refine List.splitOn_intercalate '/' ?_ (by simpa using some)
    intro segment member
    obtain ⟨s, inside, rfl⟩ := List.mem_map.mp member
    exact plain s inside
  rw [segments, split]
  simp

/-- A slash separates the segments before it from those after it. -/
theorem segments_append_slash (first second : String) :
    (⟨first ++ "/" ++ second⟩ : Path).segments
      = (⟨first⟩ : Path).segments ++ (⟨second⟩ : Path).segments := by
  have text : (first ++ "/" ++ second).toList = first.toList ++ '/' :: second.toList := by simp
  simp only [segments]
  rw [text, List.splitOn_append_cons_self, List.map_append]

theorem segments_ofNames (proper : ∀ n ∈ names, IsName n) (some : names ≠ []) :
    (ofNames names).segments = "" :: names := by
  have below := segments_joinSegments (fun n member => (proper n member).2) some
  have whole := segments_append_slash "" (joinSegments names)
  rwa [String.empty_append, below] at whole

theorem trimSegments_names (proper : ∀ n ∈ names, IsName n) : trimSegments names = names := by
  have kept : names.reverse.dropWhile (fun s => (partOf? s).isNone) = names.reverse := by
    cases reversed : names.reverse with
    | nil => rfl
    | cons last rest =>
        have member : last ∈ names := by
          rw [← List.mem_reverse, reversed]
          exact List.mem_cons_self
        rw [List.dropWhile_cons_of_neg]
        simp [partOf?_name (proper last member)]
  rw [trimSegments, kept, List.reverse_reverse]

theorem parts_ofNames (proper : ∀ n ∈ names, IsName n) :
    (ofNames names).parts = .root :: names.map .name := by
  have each : names.filterMap partOf? = names.map .name := by
    rw [← List.filterMap_eq_map]
    exact List.filterMap_congr fun n member => partOf?_name (proper n member)
  rw [parts, if_pos (isAbsolute_ofNames names)]
  by_cases root : names = []
  · subst root
    decide
  · rw [segments_ofNames proper root, List.filterMap_cons_none rfl, each]
    rfl

/-! ## Going up -/

theorem parent?_ofNames (proper : ∀ m ∈ names ++ [n], IsName m) :
    (ofNames (names ++ [n])).parent? = some (ofNames names) := by
  have above : ∀ m ∈ names, IsName m := fun m member => proper m (List.mem_append_left _ member)
  rw [parent?, if_pos (isAbsolute_ofNames _), segments_ofNames proper (by simp), List.tail_cons,
    trimSegments_names proper]
  split
  · next empty => simp at empty
  · rw [List.dropLast_concat, trimSegments_names above]
    rfl

theorem length_le_joinSegments (proper : ∀ n ∈ names, IsName n) :
    names.length ≤ (joinSegments names).toList.length := by
  rw [toList_joinSegments]
  induction names with
  | nil => exact Nat.zero_le _
  | cons n names ih =>
      have first : 0 < n.toList.length :=
        List.length_pos_iff.mpr (proper n List.mem_cons_self).ne_nil
      have rest := ih fun m member => proper m (List.mem_cons_of_mem n member)
      cases names with
      | nil => simpa using Nat.succ_le_of_lt first
      | cons m names =>
          simp only [List.map_cons, List.intercalate_cons_cons, List.length_append,
            List.length_cons] at rest ⊢
          omega

theorem go_step (proper : ∀ m ∈ names ++ [n], IsName m) (k : Nat) :
    ancestors.go (k + 1) (ofNames (names ++ [n]))
      = ofNames (names ++ [n]) :: ancestors.go k (ofNames names) := by
  rw [ancestors.go.eq_def, parent?_ofNames proper]

/-- Steps up that suffice are as many as any more. -/
theorem go_ofNames (proper : ∀ n ∈ names, IsName n) {k l : Nat} (first : names.length ≤ k)
    (second : names.length ≤ l) :
    ancestors.go k (ofNames names) = ancestors.go l (ofNames names) := by
  induction names using List.reverseRecOn generalizing k l with
  | nil => cases k <;> cases l <;> rfl
  | append_singleton names n ih =>
      rw [List.length_append, List.length_singleton] at first second
      obtain ⟨k, rfl⟩ : ∃ j, k = j + 1 := Nat.exists_eq_add_one.mpr (by omega)
      obtain ⟨l, rfl⟩ : ∃ j, l = j + 1 := Nat.exists_eq_add_one.mpr (by omega)
      have above : ∀ m ∈ names, IsName m := fun m member =>
        proper m (List.mem_append_left _ member)
      have same : ancestors.go k (ofNames names) = ancestors.go l (ofNames names) :=
        ih above (by omega) (by omega)
      rw [go_step proper, go_step proper, same]

/-- The directories from one on up are the directory itself and those from the next one on. -/
theorem ancestors_ofNames (proper : ∀ m ∈ names ++ [n], IsName m) :
    (ofNames (names ++ [n])).ancestors = ofNames (names ++ [n]) :: (ofNames names).ancestors := by
  have above : ∀ m ∈ names, IsName m := fun m member => proper m (List.mem_append_left _ member)
  have length (names : List String) :
      (ofNames names).text.length = (joinSegments names).toList.length + 1 := by
    rw [← String.length_toList, toList_ofNames, List.length_cons]
  have enough := length_le_joinSegments proper
  have enough' := length_le_joinSegments above
  rw [List.length_append, List.length_singleton] at enough
  have same : ancestors.go (joinSegments (names ++ [n])).toList.length (ofNames names)
      = ancestors.go ((joinSegments names).toList.length + 1) (ofNames names) :=
    go_ofNames above (by omega) (by omega)
  rw [ancestors, length, go_step proper, same, ancestors, length]

/-! ## Files in directories -/

theorem joinSegments_append (some : names ≠ []) :
    joinSegments (names ++ [n]) = joinSegments names ++ "/" ++ n := by
  rw [joinSegments, String.intercalate_append_of_ne_nil some (List.cons_ne_nil n []),
    String.intercalate_singleton]
  rfl

theorem not_isAbsolute_name (name : IsName n) : (⟨n⟩ : Path).isAbsolute = false := by
  rw [isAbsolute, beq_eq_false_iff_ne]
  intro first
  exact name.2 (List.mem_of_head? first)

theorem endsWithSlash_ofNames (name : IsName n) (names : List String) :
    (ofNames (names ++ [n])).endsWithSlash = false := by
  obtain ⟨front, last⟩ : ∃ front, (ofNames (names ++ [n])).text.toList = front ++ n.toList := by
    by_cases root : names = []
    · subst root
      exact ⟨['/'], by simp [toList_ofNames, joinSegments]⟩
    · refine ⟨'/' :: (joinSegments names).toList ++ ['/'], ?_⟩
      simp [toList_ofNames, joinSegments_append root]
  rw [endsWithSlash, beq_eq_false_iff_ne, last, List.getLast?_append_of_ne_nil _ name.ne_nil]
  intro slash
  exact name.2 (List.mem_of_getLast? slash)

/-- The path of a file in a directory. -/
theorem join_ofNames (proper : ∀ n ∈ names, IsName n) (name : IsName n) :
    (ofNames names).join ⟨n⟩ = ofNames (names ++ [n]) := by
  have filled : (ofNames names).text ≠ "" := by simp [ofNames]
  rw [join, if_neg (by simp [not_isAbsolute_name name, filled])]
  rcases List.eq_nil_or_concat' names with rfl | ⟨above, last, rfl⟩
  · rw [if_pos (by decide)]
    simp [ofNames, joinSegments]
  · have nested : above ++ [last] ≠ [] := by simp
    rw [if_neg (by simp [endsWithSlash_ofNames (proper last (by simp))]), ofNames, ofNames,
      joinSegments_append nested]
    simp [String.append_assoc]

theorem not_isAbsolute_joinSegments (proper : ∀ n ∈ names, IsName n) :
    (⟨joinSegments names⟩ : Path).isAbsolute = false := by
  rw [isAbsolute, beq_eq_false_iff_ne, toList_joinSegments]
  cases names with
  | nil => simp
  | cons n names =>
      have name := proper n List.mem_cons_self
      obtain ⟨c, cs, first⟩ := List.exists_cons_of_ne_nil name.ne_nil
      have apart : c ≠ '/' := by
        rintro rfl
        exact name.2 (by simp [first])
      cases names <;> simp [first, apart, List.intercalate_cons_cons]

theorem parent?_joinSegments (proper : ∀ m ∈ names ++ [n], IsName m) :
    (⟨joinSegments (names ++ [n])⟩ : Path).parent? = some ⟨joinSegments names⟩ := by
  have above : ∀ m ∈ names, IsName m := fun m member => proper m (List.mem_append_left _ member)
  have relative := not_isAbsolute_joinSegments proper
  have segments := segments_joinSegments (fun m member => (proper m member).2) (by simp)
  have first : (names ++ [n]).head? ≠ some "." := by
    intro here
    exact (proper "." (List.mem_of_head? here)).1 (by simp)
  simp only [parent?, relative, segments, first, trimSegments_names proper, Bool.false_eq_true,
    if_false]
  split
  · next empty => simp at empty
  · simp [trimSegments_names above]

theorem join_joinSegments (proper : ∀ n ∈ names, IsName n) (name : IsName n) :
    (⟨joinSegments names⟩ : Path).join ⟨n⟩ = ⟨joinSegments (names ++ [n])⟩ := by
  have relative := not_isAbsolute_name name
  rcases List.eq_nil_or_concat' names with rfl | ⟨above, last, rfl⟩
  · simp [join, joinSegments]
  · have filled : joinSegments (above ++ [last]) ≠ "" := by
      intro empty
      have short := length_le_joinSegments proper
      simp [empty] at short
    have ends : (⟨joinSegments (above ++ [last])⟩ : Path).endsWithSlash = false := by
      have name := proper last (by simp)
      have slash := endsWithSlash_ofNames name above
      rw [endsWithSlash, toList_ofNames, beq_eq_false_iff_ne] at slash
      rw [endsWithSlash, beq_eq_false_iff_ne]
      intro last
      apply slash
      simp [List.getLast?_cons, last]
    have longer : joinSegments (above ++ [last] ++ [n]) = joinSegments (above ++ [last]) ++ "/" ++ n :=
      joinSegments_append (by simp)
    simp only [join, relative, filled, ends, longer, Bool.false_eq_true, or_self, if_false]

/-! ## Names in files -/

/-- What a name in a file stands for: the path of that name, seen from the directory of the file if it
    has one. -/
inductive Names (file name : Path) : Path → Prop where
  | inDirectory {directory : Path} : file.parent? = some directory →
      Names file name (directory.join name)
  | bare : file.parent? = none → Names file name name

theorem names_iff {file name target : Path} :
    file.Names name target ↔ file.sibling name = target := by
  constructor
  · intro names
    cases names with
    | inDirectory parent => simp [sibling, parent]
    | bare none => simp [sibling, none]
  · intro same
    subst same
    unfold sibling
    split
    · next parent => exact .inDirectory parent
    · next none => exact .bare none

theorem names_sibling (file name : Path) : file.Names name (file.sibling name) :=
  names_iff.mpr rfl

theorem sibling_of_isAbsolute {p q : Path} (absolute : q.isAbsolute = true) : p.sibling q = q := by
  unfold sibling
  split
  · simp [join, absolute]
  · rfl

theorem sibling_ofNames {m : String} (proper : ∀ k ∈ names ++ [n], IsName k) (name : IsName m) :
    (ofNames (names ++ [n])).sibling ⟨m⟩ = ofNames (names ++ [m]) := by
  have above : ∀ k ∈ names, IsName k := fun k member => proper k (List.mem_append_left _ member)
  simp only [sibling, parent?_ofNames proper, join_ofNames above name]

theorem sibling_joinSegments {m : String} (proper : ∀ k ∈ names ++ [n], IsName k)
    (name : IsName m) : (⟨joinSegments (names ++ [n])⟩ : Path).sibling ⟨m⟩
      = ⟨joinSegments (names ++ [m])⟩ := by
  have above : ∀ k ∈ names, IsName k := fun k member => proper k (List.mem_append_left _ member)
  simp only [sibling, parent?_joinSegments proper, join_joinSegments above name]

/-! ## Absolute forms -/

theorem slashes_ofNames (proper : ∀ n ∈ names, IsName n) :
    (ofNames names).text.toList.takeWhile (· = '/') = ['/'] := by
  have relative := not_isAbsolute_joinSegments proper
  rw [isAbsolute, beq_eq_false_iff_ne] at relative
  rw [toList_ofNames, List.takeWhile_cons_of_pos (by decide)]
  cases rest : (joinSegments names).toList with
  | nil => rfl
  | cons c cs =>
      rw [List.takeWhile_cons_of_neg]
      simpa [rest] using relative

/-- A normalized path is its own absolute form. -/
theorem absolute?_ofNames (proper : ∀ n ∈ names, IsName n) (current : Path) :
    (ofNames names).absolute? current = some (ofNames names) := by
  have filled : (ofNames names).text ≠ "" := by simp [ofNames]
  have written : ((ofNames names).parts.filter fun part => part ≠ .root ∧ part ≠ .here).map partText
      = names := by
    rw [parts_ofNames proper, List.filter_cons_of_neg (by simp), List.filter_eq_self.mpr]
    · simp [Function.comp_def, partText]
    · intro part member
      obtain ⟨n, -, rfl⟩ := List.mem_map.mp member
      simp
  have base : (if ((ofNames names).text.toList.takeWhile (· = '/')).length = 2 then (⟨"//"⟩ : Path)
      else if (ofNames names).isAbsolute then ⟨"/"⟩ else current) = ofNames [] := by
    rw [slashes_ofNames proper, if_neg (by simp), if_pos (isAbsolute_ofNames names)]
    rfl
  rw [absolute?, if_neg filled]
  simp only [written, base]
  rcases List.eq_nil_or_concat' names with rfl | ⟨above, last, rfl⟩
  · decide
  · have name := proper last (by simp)
    have whole : (ofNames []).join ⟨joinSegments (above ++ [last])⟩
        = ofNames (above ++ [last]) := by
      rw [join, if_neg (by simp [not_isAbsolute_joinSegments proper, ofNames]), if_pos (by decide)]
      rfl
    simp [whole, endsWithSlash_ofNames name]

end PinFloor.Path

namespace PinFloor.FileSystem

open PinFloor.Path

variable {fs : FileSystem} {names place : List String}

/-- A normalized path can be followed to its last name: directories lead there, and no limit on
    names and paths is in the way. -/
structure Follows (fs : FileSystem) (names : List String) : Prop where
  directories : ∀ above, above <+: names → above ≠ names → fs.node? above = some .directory
  fits : ∀ n ∈ names, n.utf8ByteSize ≤ maxName
  short : (ofNames names).text.utf8ByteSize < maxPath
  plain : '\x00' ∉ (ofNames names).text.toList

theorem walk_names (proper : ∀ n ∈ names, IsName n) (fits : ∀ n ∈ names, n.utf8ByteSize ≤ maxName)
    (directories : ∀ above, above <+: names → above ≠ names →
      fs.node? (place ++ above) = some .directory) :
    fs.walk place names = if names ≠ [] ∧ fs.node? (place ++ names) = none then .error .notFound
      else .ok (place ++ names) := by
  induction names generalizing place with
  | nil => simp [walk]
  | cons n names ih =>
      have here : fs.node? place = some .directory := by
        simpa using directories [] List.nil_prefix (by simp)
      have short : ¬ maxName < n.utf8ByteSize := Nat.not_lt.mpr (fits n List.mem_cons_self)
      have deeper : ∀ above, above <+: names → above ≠ names →
          fs.node? (place ++ [n] ++ above) = some .directory := by
        intro above part apart
        have longer := directories (n :: above) (List.cons_prefix_cons.mpr ⟨rfl, part⟩) (by simpa)
        rwa [List.append_assoc]
      have rest := ih (fun m member => proper m (List.mem_cons_of_mem n member))
        (fun m member => fits m (List.mem_cons_of_mem n member)) deeper
      rw [List.append_assoc, List.singleton_append] at rest
      rw [walk, here, partOf?_name (proper n List.mem_cons_self)]
      simp only [ne_eq, not_true_eq_false, if_false, if_neg short, rest]
      cases names with
      | nil => cases fs.node? (place ++ [n]) <;> simp
      | cons m names =>
          have next : fs.node? (place ++ [n]) = some .directory := by
            simpa using deeper [] List.nil_prefix (by simp)
          simp [next]

theorem resolve_ofNames (proper : ∀ n ∈ names, IsName n) (below : names ≠ [])
    (follows : fs.Follows names) : fs.resolve (ofNames names) =
      if fs.node? names = none then .error .notFound else .ok names := by
  have filled : (ofNames names).text ≠ "" := by simp [ofNames]
  have root : fs.node? [] = some .directory :=
    follows.directories [] List.nil_prefix (Ne.symm below)
  -- The first segment, before the slash, is empty and leads nowhere.
  have walked : fs.walk [] names = if names ≠ [] ∧ fs.node? ([] ++ names) = none then
      .error .notFound else .ok ([] ++ names) :=
    walk_names proper follows.fits follows.directories
  rw [resolve, if_neg (by simpa using follows.plain), if_neg filled,
    if_neg (Nat.not_le.mpr follows.short), if_pos (isAbsolute_ofNames names),
    segments_ofNames proper below, walk, if_neg (by simp [root])]
  simpa [partOf?, below] using walked

/-- What is read at the end of a path. -/
theorem read_ofNames (proper : ∀ n ∈ names, IsName n) (below : names ≠ [])
    (follows : fs.Follows names) : fs.read (ofNames names) =
      match fs.node? names with
      | some (.text content) => .ok content
      | some .binary => .error .notText
      | some .directory => .error .isDirectory
      | none => .error .notFound := by
  rw [read, resolve_ofNames proper below follows]
  cases found : fs.node? names with
  | none => rfl
  | some node => cases node <;> simp only [reduceCtorEq, if_false, found]

end PinFloor.FileSystem
