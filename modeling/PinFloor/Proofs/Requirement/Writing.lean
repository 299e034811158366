import PinFloor.Proofs.Marker.Writing
import PinFloor.Proofs.RequirementsFile.UrlComments
import PinFloor.Proofs.Specifier.Reading
import PinFloor.Proofs.Url

/-! # Written requirements start no comments

A requirement is read from a text without comments. Its own text has none either, and its first word
holds no `#` at all.
-/

namespace PinFloor

open Scanner PackageName

/-! ## Versions -/

namespace Version

theorem plain_text {v : Version} (proper : v.IsProper) : Plain v.text.toList := by
  have numbered (before : String) (n : Nat) (plain : Plain before.toList) :
      Plain (before ++ Decimal.text n).toList := by
    rw [String.toList_append, Decimal.text, String.toList_ofList]
    exact plain.append (Decimal.plain_digits n)
  have empty : Plain "".toList := List.forall_mem_nil _
  simp only [text, String.toList_append]
  refine .append (.append (.append (.append (.append ?epoch (plain_releaseText _)) ?pre) ?post)
    ?dev) ?label
  case epoch =>
    split
    · exact empty
    · rw [String.toList_append]
      exact .append (numbered "" v.epoch empty) (by simp [Plain, isBreak])
  case pre =>
    split
    · exact empty
    · next stage n _ =>
        refine numbered _ n ?_
        cases stage <;> simp [Plain, Stage.text, isBreak]
  case post =>
    split
    · exact empty
    · exact numbered _ _ (by simp [Plain, isBreak])
  case dev =>
    split
    · exact empty
    · exact numbered _ _ (by simp [Plain, isBreak])
  case label =>
    split
    · exact empty
    · rw [String.toList_append, String.toList_intercalate]
      refine .append (by simp [Plain, isBreak])
        (forall_mem_intercalate (by simp [isBreak]) fun word written => ?_)
      obtain ⟨_, given, rfl⟩ := List.mem_map.mp written
      obtain ⟨part, member, rfl⟩ := List.mem_map.mp given
      exact Plain.of_class (p := Char.isAlphanum) (by decide) (proper.label part member).plain

end Version

/-! ## Reading -/

/-- A source whose text starts no comment. -/
def Source.IsUncommented : Source → Prop
  | any => True
  | specifiers list => ∀ s ∈ list, s.IsProper
  | url target => Quiet target.text.toList

/-- A requirement whose parts start no comment. -/
structure Requirement.IsUncommented (r : Requirement) : Prop where
  name : IsName r.name.text.toList
  extras : ∀ e ∈ r.extras, IsName e.text.toList
  source : r.source.IsUncommented
  marker : r.marker.All Question.IsUncommented

theorem Past.suffix {cs rest : List Char} (past : Past cs rest) : rest <:+ cs := by
  obtain ⟨u, rfl, -⟩ := past
  exact List.suffix_append u rest

namespace Requirement

variable {cs rest : List Char}

theorem isName_of_reading {name : PackageName} (read : name? cs = some (name, rest)) :
    IsName name.text.toList := by
  obtain ⟨valid, rfl⟩ := isName_of_name? read
  rw [String.toList_ofList]
  exact valid.collapse

theorem isName_of_extrasUpTo? {names : List PackageName}
    (read : extrasUpTo? cs = some (names, rest)) : ∀ e ∈ names, IsName e.text.toList := by
  fun_induction extrasUpTo? cs generalizing names rest with
  | case1 | case4 | case5 => cases read
  | case2 cs name behind named more start =>
      cases read
      simpa using isName_of_reading named
  | case3 cs name behind named more start shorter ih =>
      obtain ⟨⟨_, _⟩, read, same⟩ := Option.map_eq_some_iff.mp read
      cases same
      exact List.forall_mem_cons.mpr ⟨isName_of_reading named, ih read⟩

theorem isName_of_extras? {names : List PackageName} (read : extras? cs = some (names, rest)) :
    ∀ e ∈ names, IsName e.text.toList := by
  unfold extras? at read
  split at read
  · split at read
    · cases read
      nofun
    · exact isName_of_extrasUpTo? read
  · cases read
    nofun

theorem append_of_splitUrl? {url : List Char} (read : splitUrl? cs = some (url, rest)) :
    cs = url ++ rest := by
  fun_induction splitUrl? cs generalizing url rest with
  | case1 | case2 =>
      cases read
      rfl
  | case3 => cases read
  | case4 =>
      cases read
      rfl
  | case5 => cases read
  | case6 c d more _ _ _ ih =>
      obtain ⟨⟨_, _⟩, read, same⟩ := Option.map_eq_some_iff.mp read
      cases same
      rw [ih read]
      rfl

theorem uncommented_of_source? {source : Source} (text : Uncommented cs)
    (read : source? cs = some (source, rest)) : source.IsUncommented ∧ Uncommented rest := by
  unfold source? at read
  split at read
  · cases read
    exact ⟨trivial, text⟩
  · cases read
    exact ⟨trivial, text⟩
  · next behind =>
      obtain ⟨⟨url, left⟩, split, read⟩ := Option.bind_eq_some_iff.mp read
      have parts := text.tail.dropWhile isBlank
      rw [← trimStart, append_of_splitUrl? split] at parts
      simp only at read
      split at read
      · cases read
      · obtain ⟨target, parsed, same⟩ := Option.bind_eq_some_iff.mp read
        cases same
        exact ⟨Url.quiet_of_parse? (parts.of_isInfix (List.prefix_append _ _).isInfix) parsed,
          parts.of_isInfix (List.suffix_append _ _).isInfix⟩
  · next inner =>
      split at read
      · next closed =>
          obtain ⟨list, parsed, same⟩ := Option.map_eq_some_iff.mp read
          cases same
          have behind := text.tail.dropWhile (· ≠ ')')
          rw [closed] at behind
          exact ⟨Specifier.proper_of_parseList? parsed, behind.tail⟩
      · cases read
  · split at read
    · obtain ⟨list, parsed, same⟩ := Option.map_eq_some_iff.mp read
      cases same
      exact ⟨Specifier.proper_of_parseList? parsed, text.dropWhile _⟩
    · cases read

theorem all_of_marker? {m : Marker} (text : Uncommented cs) (read : marker? cs = some m) :
    m.All Question.IsUncommented := by
  unfold marker? at read
  split at read
  · cases read
    trivial
  · cases read
    trivial
  · next start =>
      have behind := text.dropWhile isBlank
      rw [← trimStart, start] at behind
      exact Marker.all_of_parse? behind.tail read
  · cases read

/-- Nothing in a requirement that is read from a text without comments starts one. -/
theorem uncommented_of_parse? {r : Requirement} (text : Uncommented cs)
    (read : parse? cs = some r) : r.IsUncommented := by
  simp only [parse?, Option.bind_eq_bind, Option.bind_eq_some_iff] at read
  obtain ⟨⟨name, behindName⟩, named, ⟨extras, behindExtras⟩, listed, ⟨source, behindSource⟩,
    sourced, read⟩ := read
  have text := (text.dropWhile isBlank).of_isInfix (readsNoColon_name? named).suffix.isInfix
  have text := (text.dropWhile isBlank).of_isInfix (readsNoColon_extras? listed).suffix.isInfix
  obtain ⟨plain, text⟩ := uncommented_of_source? (text.dropWhile isBlank) sourced
  split at read
  · cases read
  · obtain ⟨m, marked, same⟩ := Option.bind_eq_some_iff.mp read
    cases same
    exact ⟨isName_of_reading named, isName_of_extras? listed, plain, all_of_marker? text marked⟩

end Requirement

/-! ## Writing -/

theorem Specifier.plain_text {s : Specifier} (proper : s.IsProper) : Plain s.text.toList := by
  simp only [text, String.toList_append]
  refine .append (.append ?_ (Version.plain_text proper.version)) ?_
  · cases s.operator <;> simp [Plain, Operator.sign, isBreak]
  · split <;> simp [Plain, isBreak]

theorem PackageName.plain_of_isName {n : List Char} (name : IsName n) : Plain n :=
  .of_class (p := Requirement.inName) (by decide) fun _ => Requirement.inName_of_isName name

namespace Requirement

variable {r : Requirement}

/-- The text before the marker is a plain word, which may be followed by a space and a URL. -/
theorem exists_core (plain : r.IsUncommented) : ∃ word rest, r.coreText.toList = word ++ rest ∧
    Plain word ∧ Quiet rest ∧ (∀ c, rest.head? = some c → c = ' ') ∧
    ∃ c, word.head? = some c ∧ c.isAlphanum = true := by
  obtain ⟨name, extras, source, marker⟩ := r
  have brackets : Plain (if extras.isEmpty then ""
      else "[" ++ String.intercalate "," (extras.map PackageName.text) ++ "]").toList := by
    split
    · exact List.forall_mem_nil _
    · simp only [String.toList_append, String.toList_intercalate]
      refine .append (.append (by simp [Plain, isBreak])
        (forall_mem_intercalate (by simp [isBreak]) fun part written => ?_))
        (by simp [Plain, isBreak])
      obtain ⟨_, given, rfl⟩ := List.mem_map.mp written
      obtain ⟨extra, member, rfl⟩ := List.mem_map.mp given
      exact PackageName.plain_of_isName (plain.extras extra member)
  have front := (PackageName.plain_of_isName plain.name).append brackets
  obtain ⟨c, first, letter⟩ := plain.name.first
  have start (behind : List Char) : (name.text.toList ++ behind).head? = some c := by
    rw [List.head?_append, first, Option.some_or]
  cases source with
  | any =>
      refine ⟨_, [], ?_, front, .nil, by simp, c, start _, letter⟩
      simp [coreText, Source.text]
  | specifiers list =>
      have listed : Plain (String.intercalate "," (list.map Specifier.text)).toList := by
        rw [String.toList_intercalate]
        refine forall_mem_intercalate (by simp [isBreak]) fun part written => ?_
        obtain ⟨_, given, rfl⟩ := List.mem_map.mp written
        obtain ⟨s, member, rfl⟩ := List.mem_map.mp given
        exact Specifier.plain_text (plain.source s member)
      refine ⟨_, [], ?_, front.append listed, .nil, by simp, c, ?_, letter⟩
      · simp [coreText, Source.text]
      · rw [List.append_assoc, start]
  | url target =>
      refine ⟨_, " @ ".toList ++ target.text.toList, ?_, front, ?_, ?_, c, start _, letter⟩
      · simp [coreText, Source.text]
      · exact Quiet.append (.of_plain (by simp [Plain, isBreak])) plain.source
      · rintro _ ⟨⟩
        rfl

/-- A written requirement starts with a plain word, and what follows behind a space is quiet. -/
theorem exists_word (plain : r.IsUncommented) : ∃ word rest, r.text.toList = word ++ rest ∧
    Plain word ∧ Quiet rest ∧ (∀ c, rest.head? = some c → c = ' ') ∧
    ∃ c, word.head? = some c ∧ c.isAlphanum = true := by
  obtain ⟨word, rest, written, plainWord, quiet, behind, first⟩ := exists_core plain
  unfold text
  split
  · exact ⟨word, rest, written, plainWord, quiet, behind, first⟩
  · next marker found =>
      refine ⟨word, rest ++ " ; ".toList ++ marker.toList, ?_, plainWord, ?_, fun c => ?_, first⟩
      · simp [written]
      · exact .append (.append quiet (.of_plain (by simp [Plain, isBreak])))
          (Marker.quiet_of_text? plain.marker found)
      · cases rest with
        | nil =>
            rintro ⟨⟩
            rfl
        | cons d rest => exact behind c

theorem quiet_text (plain : r.IsUncommented) : Quiet r.text.toList := by
  obtain ⟨word, rest, written, plainWord, quiet, -⟩ := exists_word plain
  rw [written]
  exact (Quiet.of_plain plainWord).append quiet

/-- A URL in a comment would stand in the first word, which has no comment. -/
theorem not_hasUrlComment_text (plain : r.IsUncommented) : ¬ HasUrlComment r.text.toList := by
  obtain ⟨word, rest, written, plainWord, -, behind, -⟩ := exists_word plain
  rw [written]
  rintro ⟨front, comment, whole, inside, -⟩
  have shape : word ++ rest = (front ++ [')', '#']) ++ comment := by rw [whole]; simp
  have hash : '#' ∉ word := fun member => (plainWord '#' member).2 rfl
  rcases List.append_eq_append_iff.mp shape with ⟨more, longer, left⟩ | ⟨more, rfl, -⟩
  · cases more with
    | nil =>
        rw [List.append_nil] at longer
        exact hash (longer ▸ by simp)
    | cons d more =>
        have space : d = ' ' := behind d (by rw [left]; rfl)
        have member : ' ' ∈ front ++ [')', '#'] := by simp [longer, space]
        rcases List.mem_append.mp member with member | member
        · cases inside ' ' member
        · simp at member
  · exact hash (by simp)

end Requirement

end PinFloor
