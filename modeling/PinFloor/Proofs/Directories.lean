import Mathlib.Data.List.Basic
import Mathlib.Data.List.Induction
import PinFloor.Proofs.Path
import PinFloor.Proofs.Text.Words

/-! # Directories and the files in them

A path that leads to a directory is followed through directories only, and so are the paths above
it. A file in the directory is read from its place there, whatever the file system holds besides.
Without one of its files a file system is the same everywhere else.
-/

namespace PinFloor

variable {fs fs' : FileSystem} {d p q : Path} {n : String}
  {place target file xs segs : List String}

namespace Path

/-! ## Segments of a path -/

theorem not_slash_of_mem_segments {s : String} (member : s ∈ p.segments) : '/' ∉ s.toList := by
  rw [segments] at member
  obtain ⟨part, among, rfl⟩ := List.mem_map.mp member
  rw [String.toList_ofList]
  exact not_mem_of_mem_splitOn among

theorem segments_name (plain : '/' ∉ n.toList) : (⟨n⟩ : Path).segments = [n] := by
  have single : (⟨joinSegments [n]⟩ : Path).segments = [n] :=
    segments_joinSegments (by simpa using plain) (by simp)
  rwa [joinSegments, String.intercalate_singleton] at single

theorem isAbsolute_iff : p.isAbsolute = true ↔ ∃ rest, rest ≠ [] ∧ p.segments = "" :: rest := by
  rw [isAbsolute, beq_iff_eq, segments]
  cases text : p.text.toList with
  | nil => simp
  | cons c cs =>
      rw [List.head?_cons, List.splitOn_cons_eq_if_modifyHead]
      obtain ⟨first, rest, split⟩ := List.exists_cons_of_ne_nil (List.splitOn_ne_nil '/' cs)
      by_cases slash : c = '/'
      · simp [slash, split]
      · simp [slash, split]

theorem isAbsolute_of_isPrefix_segments (absolute : p.isAbsolute = true)
    (part : p.segments <+: q.segments) : q.isAbsolute = true := by
  obtain ⟨rest, some, first⟩ := isAbsolute_iff.mp absolute
  obtain ⟨more, whole⟩ := part
  refine isAbsolute_iff.mpr ⟨rest ++ more, by simp [some], ?_⟩
  rw [← whole, first, List.cons_append]

theorem isPrefix_trimSegments (segs : List String) : trimSegments segs <+: segs := by
  rw [trimSegments, ← List.reverse_suffix, List.reverse_reverse]
  exact List.dropWhile_suffix _

theorem isPrefix_trimSegments_dropLast (segs : List String) :
    trimSegments (trimSegments segs).dropLast <+: segs :=
  (isPrefix_trimSegments _).trans ((List.dropLast_prefix _).trans (isPrefix_trimSegments segs))

/-- A path starts where another one starts and has its first segments, perhaps with a slash behind
    them. -/
structure IsAbove (q p : Path) : Prop where
  start : q.isAbsolute = p.isAbsolute
  segments : ∃ front, front <+: p.segments ∧ (q.segments = front ∨ q.segments = front ++ [""])

theorem isAbove_of_absolute {rest : List String} (absolute : p.isAbsolute = true)
    (whole : p.segments = "" :: rest) (part : segs <+: rest) :
    IsAbove ⟨"/" ++ joinSegments segs⟩ p := by
  have split := segments_append_slash "" (joinSegments segs)
  rw [String.empty_append] at split
  refine ⟨?_, "" :: segs, ?_, ?_⟩
  · rw [absolute]
    simp [isAbsolute]
  · rw [whole]
    exact List.cons_prefix_cons.mpr ⟨rfl, part⟩
  · rw [split]
    by_cases empty : segs = []
    · subst empty
      exact .inr rfl
    · have plain : ∀ s ∈ segs, '/' ∉ s.toList := fun s member =>
        not_slash_of_mem_segments (whole ▸ List.mem_cons_of_mem "" (part.subset member))
      rw [segments_joinSegments plain empty]
      exact .inl rfl

theorem isAbove_of_relative (relative : ¬ p.isAbsolute = true) (part : segs <+: p.segments) :
    IsAbove ⟨joinSegments segs⟩ p := by
  by_cases empty : segs = []
  · subst empty
    refine ⟨?_, [], List.nil_prefix, .inr rfl⟩
    rw [Bool.not_eq_true] at relative
    rw [relative]
    rfl
  · have own := segments_joinSegments
      (fun s member => not_slash_of_mem_segments (part.subset member)) empty
    refine ⟨?_, segs, part, .inl own⟩
    rw [Bool.eq_iff_iff]
    refine iff_of_false ?_ relative
    intro absolute
    exact relative (isAbsolute_of_isPrefix_segments absolute (by rwa [own]))

theorem isAbove_of_parent? (above : p.parent? = some q) : IsAbove q p := by
  rw [parent?] at above
  split at above
  · next absolute =>
      obtain ⟨rest, -, whole⟩ := isAbsolute_iff.mp absolute
      rw [whole, List.tail_cons] at above
      split at above
      · cases above
      · obtain rfl := Option.some.inj above
        exact isAbove_of_absolute absolute whole (isPrefix_trimSegments_dropLast rest)
  · next relative =>
      split at above
      · next dot =>
          obtain ⟨rest, whole⟩ : ∃ rest, p.segments = "." :: rest :=
            ⟨_, List.eq_cons_of_mem_head? dot⟩
          rw [whole, List.tail_cons] at above
          split at above
          · obtain rfl := Option.some.inj above
            exact isAbove_of_relative relative List.nil_prefix
          · obtain rfl := Option.some.inj above
            refine isAbove_of_relative relative ?_
            rw [whole]
            exact List.cons_prefix_cons.mpr ⟨rfl, isPrefix_trimSegments_dropLast rest⟩
      · split at above
        · cases above
        · obtain rfl := Option.some.inj above
          exact isAbove_of_relative relative (isPrefix_trimSegments_dropLast _)

/-- What is refused about a path before anything is looked up. -/
def refusal? (p : Path) : Option ReadError :=
  if p.text.toList.contains '\x00' then some .zeroInName
  else if FileSystem.maxPath ≤ p.text.utf8ByteSize then some .nameTooLong
  else none

end Path

namespace FileSystem

open PinFloor.Path

/-! ## Leading to a directory -/

/-- The directory that a path is followed from. -/
def start (fs : FileSystem) (p : Path) : List String :=
  if p.isAbsolute then [] else fs.current

/-- The segments of a path lead to a directory. -/
structure Leads (fs : FileSystem) (p : Path) (place : List String) : Prop where
  walk : fs.walk (fs.start p) p.segments = .ok place
  directory : fs.node? place = some .directory

theorem walk_append (xs ys : List String) (place : List String) :
    fs.walk place (xs ++ ys) = (fs.walk place xs).bind fun next => fs.walk next ys := by
  induction xs generalizing place with
  | nil => rfl
  | cons s xs ih =>
      rw [List.cons_append, walk, walk]
      split
      · rfl
      · split
        · split
          · rfl
          · split
            · rfl
            · exact ih _
        · exact ih _
        · exact ih _

/-- A walk to a directory starts in one. -/
theorem directory_of_walk (walk : fs.walk place segs = .ok target)
    (directory : fs.node? target = some .directory) : fs.node? place = some .directory := by
  cases segs with
  | nil =>
      obtain rfl := Except.ok.inj walk
      exact directory
  | cons s segs =>
      rw [FileSystem.walk] at walk
      by_contra other
      simp [other] at walk

theorem walk_of_isPrefix (walk : fs.walk place segs = .ok target)
    (directory : fs.node? target = some .directory) (part : xs <+: segs) :
    ∃ next, fs.walk place xs = .ok next ∧ fs.node? next = some .directory := by
  obtain ⟨ys, rfl⟩ := part
  rw [walk_append] at walk
  cases first : fs.walk place xs with
  | error error => simp [first, Except.bind] at walk
  | ok next =>
      rw [first] at walk
      exact ⟨next, rfl, directory_of_walk walk directory⟩

theorem walk_empty (directory : fs.node? place = some .directory) (segs : List String) :
    fs.walk place ("" :: segs) = fs.walk place segs := by
  rw [walk, if_neg (by simp [directory])]
  rfl

/-- Directories are all that a walk to one depends on. -/
theorem walk_of_directories (same : ∀ place, fs.node? place = some .directory →
      fs'.node? place = some .directory) (walk : fs.walk place segs = .ok target)
    (directory : fs.node? target = some .directory) : fs'.walk place segs = .ok target := by
  induction segs generalizing place with
  | nil => exact walk
  | cons s segs ih =>
      have here := same place (directory_of_walk walk directory)
      rw [FileSystem.walk] at walk ⊢
      rw [if_neg (by simp [here])]
      split at walk
      · cases walk
      · split at walk
        · split at walk
          · cases walk
          · next short =>
              split at walk
              · cases walk
              · have next := same _ (directory_of_walk walk directory)
                simp [short, next, ih walk]
        · exact ih walk
        · exact ih walk

namespace Leads

theorem above (leads : fs.Leads p place) (above : IsAbove q p) : ∃ next, fs.Leads q next := by
  obtain ⟨sameStart, front, part, segments⟩ := above
  obtain ⟨next, walk, directory⟩ := walk_of_isPrefix leads.walk leads.directory part
  refine ⟨next, ?_, directory⟩
  rw [start, sameStart, ← start]
  rcases segments with segments | segments
  · rw [segments, walk]
  · rw [segments, walk_append, walk]
    exact walk_empty directory []

theorem ancestors (leads : fs.Leads d place) : ∀ p ∈ d.ancestors, ∃ next, fs.Leads p next := by
  rw [Path.ancestors]
  generalize d.text.length = steps
  induction steps generalizing d place with
  | zero =>
      intro p member
      rw [Path.ancestors.go.eq_def] at member
      obtain rfl := List.mem_singleton.mp member
      exact ⟨place, leads⟩
  | succ steps ih =>
      intro p member
      rw [Path.ancestors.go.eq_def] at member
      split at member
      · next next same up =>
          obtain rfl := Nat.succ.inj same
          rcases List.mem_cons.mp member with rfl | higher
          · exact ⟨place, leads⟩
          · obtain ⟨next, leads⟩ := leads.above (isAbove_of_parent? up)
            exact ih leads p higher
      · obtain rfl := List.mem_singleton.mp member
        exact ⟨place, leads⟩

end Leads

/-! ## Reading a file of a directory -/

/-- The text at a place. -/
def contentAt (fs : FileSystem) (place : List String) : Except ReadError (List Char) :=
  match fs.node? place with
  | some (.text content) => .ok content
  | some .binary => .error .notText
  | some .directory => .error .isDirectory
  | none => .error .notFound

/-- A slash is put between a directory and a file, if there is none at the end of the directory. -/
inductive Joins (n : String) : Path → Path → Prop where
  | bare : Joins n ⟨""⟩ ⟨n⟩
  | slashed (front : String) : Joins n ⟨front ++ "/"⟩ ⟨front ++ "/" ++ n⟩
  | plain {text : String} : text ≠ "" → Joins n ⟨text⟩ ⟨text ++ "/" ++ n⟩

theorem joins (name : IsName n) (d : Path) : Joins n d (d.join ⟨n⟩) := by
  obtain ⟨text⟩ := d
  rw [join, not_isAbsolute_name name]
  by_cases empty : text = ""
  · subst empty
    exact .bare
  · rw [if_neg (by simp [empty])]
    split
    · next last =>
        rw [endsWithSlash, beq_iff_eq] at last
        obtain ⟨front, whole⟩ := List.getLast?_eq_some_iff.mp last
        obtain rfl : text = String.ofList front ++ "/" := by
          rw [← String.toList_inj, whole]
          simp
        exact .slashed _
    · exact .plain empty

theorem isAbsolute_join (name : IsName n) (d : Path) :
    (d.join ⟨n⟩).isAbsolute = d.isAbsolute := by
  have joined := joins name d
  generalize d.join ⟨n⟩ = file at joined ⊢
  cases joined with
  | bare => exact not_isAbsolute_name name
  | slashed front => simp [isAbsolute]
  | plain filled =>
      obtain ⟨c, cs, text⟩ := List.exists_cons_of_ne_nil (mt String.toList_eq_nil_iff.mp filled)
      simp [isAbsolute, text]

theorem text_join_ne_empty (name : IsName n) (d : Path) : (d.join ⟨n⟩).text ≠ "" := by
  have joined := joins name d
  generalize d.join ⟨n⟩ = file at joined ⊢
  cases joined with
  | bare => exact mt String.toList_eq_nil_iff.mpr name.ne_nil
  | slashed | plain => simp

/-- The way to a file in a directory ends with its name. -/
theorem walk_join (leads : fs.Leads d place) (name : IsName n) :
    fs.walk (fs.start (d.join ⟨n⟩)) (d.join ⟨n⟩).segments = fs.walk place [n] := by
  obtain ⟨walk, directory⟩ := leads
  rw [start, isAbsolute_join name, ← start]
  have joined := joins name d
  have last := segments_name name.2
  generalize d.join ⟨n⟩ = file at joined ⊢
  generalize fs.start d = begin at walk ⊢
  -- An empty segment, before the name or alone, leads nowhere else.
  have empty {place' : List String} (walk : fs.walk place' [""] = .ok place) : place' = place :=
    Except.ok.inj ((walk_empty (directory_of_walk walk directory) []).symm.trans walk)
  cases joined with
  | bare => rw [last, empty walk]
  | slashed front =>
      have split := segments_append_slash front ""
      rw [String.append_empty] at split
      rw [split] at walk
      obtain ⟨next, first, _⟩ := walk_of_isPrefix walk directory (List.prefix_append _ _)
      rw [walk_append, first] at walk
      rw [segments_append_slash, last, walk_append, first, ← empty walk]
      rfl
  | plain filled =>
      rw [segments_append_slash, last, walk_append, walk]
      rfl

theorem walk_name (directory : fs.node? place = some .directory) (name : IsName n)
    (short : n.utf8ByteSize ≤ maxName) : fs.walk place [n] =
      if fs.node? (place ++ [n]) = none then .error .notFound else .ok (place ++ [n]) := by
  have fits : ¬ maxName < n.utf8ByteSize := Nat.not_lt.mpr short
  rw [walk, if_neg (by simp [directory]), partOf?_name name]
  simp only [fits, if_false, Option.isNone_iff_eq_none]
  rfl

theorem resolve_join (leads : fs.Leads d place) (name : IsName n)
    (short : n.utf8ByteSize ≤ maxName) : fs.resolve (d.join ⟨n⟩) =
      match (d.join ⟨n⟩).refusal? with
      | some error => .error error
      | none =>
          if fs.node? (place ++ [n]) = none then .error .notFound else .ok (place ++ [n]) := by
  rw [resolve, if_neg (text_join_ne_empty name d), refusal?]
  split
  · rfl
  · split
    · rfl
    · exact (walk_join leads name).trans (walk_name leads.directory name short)

/-- A file in a directory is read from its place there, unless its path is refused. -/
theorem read_join (leads : fs.Leads d place) (name : IsName n)
    (short : n.utf8ByteSize ≤ maxName) : fs.read (d.join ⟨n⟩) =
      match (d.join ⟨n⟩).refusal? with
      | some error => .error error
      | none => fs.contentAt (place ++ [n]) := by
  rw [read, resolve_join leads name short]
  cases (d.join ⟨n⟩).refusal? with
  | some error => rfl
  | none =>
      rw [contentAt]
      cases found : fs.node? (place ++ [n]) with
      | none => rfl
      | some node => cases node <;> simp only [reduceCtorEq, if_false, found]

/-! ## Without one of the files -/

/-- A regular file: nothing is below its place, the current directory neither. -/
structure IsFile (fs : FileSystem) (file : List String) : Prop where
  found : ∃ node, fs.node? file = some node ∧ node ≠ .directory
  bottom : ∀ entry ∈ fs.entries, file <+: entry.1 → entry.1 = file
  current : ¬ file <+: fs.current

/-- The file system without what is at a place; the directory above stays. -/
def erase (fs : FileSystem) (file : List String) : FileSystem :=
  { fs with entries := fs.entries.filter (fun entry => entry.1 ≠ file)
                         ++ [(file.dropLast, .directory)] }

/-- A place without an entry is a directory if something is below it. -/
def HasBelow (fs : FileSystem) (place : List String) : Prop :=
  place <+: fs.current ∨ ∃ entry ∈ fs.entries, place <+: entry.1

instance (fs : FileSystem) (place : List String) : Decidable (fs.HasBelow place) :=
  inferInstanceAs (Decidable (_ ∨ _))

theorem node?_of_lookup_eq_none (missing : fs.entries.lookup place = none) : fs.node? place =
    if fs.HasBelow place then some .directory else none := by
  have below : fs.HasBelow place ↔ fs.current.take place.length = place ∨
      fs.entries.any (fun entry => entry.1.take place.length == place) = true := by
    simp only [HasBelow, List.prefix_iff_eq_take, List.any_eq_true, beq_iff_eq, @eq_comm _ place]
  simp only [node?, missing, below]

theorem lookup_cons_eq (entry : List String × Node) (entries : List (List String × Node))
    (place : List String) : (entry :: entries).lookup place
      = if place = entry.1 then some entry.2 else entries.lookup place := by
  rw [List.lookup_cons]
  by_cases here : place = entry.1
  · rw [if_pos here, here, beq_self_eq_true]
  · rw [if_neg here, beq_false_of_ne here]

theorem lookup_filter (entries : List (List String × Node)) (file place : List String) :
    (entries.filter (fun entry => entry.1 ≠ file)).lookup place
      = if place = file then none else entries.lookup place := by
  induction entries with
  | nil => simp
  | cons entry entries ih =>
      by_cases same : entry.1 = file
      · rw [List.filter_cons_of_neg (by simp [same]), ih, lookup_cons_eq, same]
        split <;> rfl
      · rw [List.filter_cons_of_pos (by simp [same]), lookup_cons_eq, lookup_cons_eq, ih]
        by_cases here : place = entry.1
        · simp [here, same]
        · simp [here]

namespace IsFile

theorem ne_nil (isFile : fs.IsFile file) : file ≠ [] := by
  rintro rfl
  exact isFile.current List.nil_prefix

theorem exists_entry (isFile : fs.IsFile file) : ∃ entry ∈ fs.entries, entry.1 = file := by
  obtain ⟨node, found, other⟩ := isFile.found
  cases listed : fs.entries.lookup file with
  | none =>
      rw [node?_of_lookup_eq_none listed] at found
      split at found
      · exact absurd (Option.some.inj found).symm other
      · cases found
  | some node =>
      obtain ⟨before, after, whole, -⟩ := List.lookup_eq_some_iff.mp listed
      exact ⟨(file, node), by simp [whole], rfl⟩

theorem not_hasBelow_erase (isFile : fs.IsFile file) : ¬ (fs.erase file).HasBelow file := by
  rintro (current | ⟨entry, member, below⟩)
  · exact isFile.current current
  · rcases List.mem_append.mp member with kept | above
    · rw [List.mem_filter] at kept
      simp [isFile.bottom entry kept.1 below] at kept
    · obtain rfl := List.mem_singleton.mp above
      have longer := below.length_le
      have some := List.length_pos_iff.mpr isFile.ne_nil
      rw [List.length_dropLast] at longer
      omega

theorem hasBelow_erase (isFile : fs.IsFile file) (apart : place ≠ file) :
    (fs.erase file).HasBelow place ↔ fs.HasBelow place := by
  refine or_congr Iff.rfl ⟨?_, ?_⟩
  · rintro ⟨entry, member, below⟩
    rcases List.mem_append.mp member with kept | above
    · exact ⟨entry, (List.mem_filter.mp kept).1, below⟩
    · obtain rfl := List.mem_singleton.mp above
      obtain ⟨entry, listed, rfl⟩ := isFile.exists_entry
      exact ⟨entry, listed, below.trans (List.dropLast_prefix _)⟩
  · rintro ⟨entry, member, below⟩
    by_cases same : entry.1 = file
    · refine ⟨(file.dropLast, .directory), by simp [erase], ?_⟩
      rw [same, ← List.dropLast_concat_getLast isFile.ne_nil] at below
      rcases List.prefix_concat_iff.mp below with whole | higher
      · rw [List.dropLast_concat_getLast] at whole
        exact absurd whole apart
      · exact higher
    · exact ⟨entry, List.mem_append_left _ (List.mem_filter.mpr ⟨member, by simp [same]⟩), below⟩

theorem lookup_erase_self (isFile : fs.IsFile file) :
    (fs.erase file).entries.lookup file = none := by
  have shorter : file ≠ file.dropLast := by
    intro same
    have length := congrArg List.length same
    have some := List.length_pos_iff.mpr isFile.ne_nil
    rw [List.length_dropLast] at length
    omega
  rw [erase, List.lookup_append, lookup_filter, if_pos rfl, Option.none_or, lookup_cons_eq,
    if_neg shorter]
  rfl

theorem lookup_erase_of_ne (fs : FileSystem) (apart : place ≠ file) :
    (fs.erase file).entries.lookup place = (fs.entries.lookup place).or (if place = file.dropLast then some .directory else none) := by
  rw [erase, List.lookup_append, lookup_filter, if_neg apart, lookup_cons_eq]
  rfl

/-- Without a file, its place is empty and all others are as before. -/
theorem node?_erase (isFile : fs.IsFile file) (place : List String) :
    (fs.erase file).node? place = if place = file then none else fs.node? place := by
  split
  · next same =>
      rw [same, node?_of_lookup_eq_none isFile.lookup_erase_self, if_neg isFile.not_hasBelow_erase]
  · next apart =>
      have listed := lookup_erase_of_ne fs apart
      cases before : fs.entries.lookup place with
      | some node =>
          rw [before, Option.some_or] at listed
          rw [node?, node?, listed, before]
      | none =>
          rw [before, Option.none_or] at listed
          rw [node?_of_lookup_eq_none before]
          split at listed
          · next above =>
              have below : fs.HasBelow place := by
                obtain ⟨entry, member, rfl⟩ := isFile.exists_entry
                exact .inr ⟨entry, member, above ▸ List.dropLast_prefix _⟩
              rw [node?, listed, if_pos below]
          · rw [node?_of_lookup_eq_none listed]
            exact if_congr (isFile.hasBelow_erase apart) rfl rfl

theorem contentAt_erase_self (isFile : fs.IsFile file) :
    (fs.erase file).contentAt file = .error .notFound := by
  rw [contentAt, isFile.node?_erase, if_pos rfl]

theorem contentAt_erase_of_ne (isFile : fs.IsFile file) (apart : place ≠ file) :
    (fs.erase file).contentAt place = fs.contentAt place := by
  rw [contentAt, isFile.node?_erase, if_neg apart, contentAt]

/-- What leads to a directory still does. -/
theorem leads_erase (isFile : fs.IsFile file) (leads : fs.Leads d place) :
    (fs.erase file).Leads d place := by
  have same (place : List String) (directory : fs.node? place = some .directory) :
      (fs.erase file).node? place = some .directory := by
    obtain ⟨node, found, other⟩ := isFile.found
    rw [isFile.node?_erase, if_neg, directory]
    rintro rfl
    exact other (Option.some.inj (found.symm.trans directory))
  exact ⟨walk_of_directories same leads.walk leads.directory, same place leads.directory⟩

end IsFile

end FileSystem
end PinFloor
