import PinFloor.Proofs.RequirementsFile.RequirementLines

/-! # Requirements with hashes

Behind a requirement any number of hashes may be written, over several lines that are joined. They
are read back in order.
-/

namespace PinFloor

open Scanner

/-- Blanks and joined line ends. -/
inductive Fills : List Char → Prop where
  | nil : Fills []
  | blank {c : Char} {cs : List Char} : isGap c = true → Fills cs → Fills (c :: cs)
  | lineEnd {mark cs : List Char} : LineEnd mark [] → Fills cs → Fills ('\\' :: (mark ++ cs))

/-- What stands between an option and its value: `=`, or blanks. -/
def Separates (sep : List Char) : Prop :=
  sep = ['='] ∨ sep ≠ [] ∧ ∀ c ∈ sep, isGap c = true

/-- A text that can be the value of a hash option. -/
structure IsHash (hash : List Char) : Prop where
  filled : hash ≠ []
  visible : ∀ c ∈ hash, isBlank c = false

/-- A hash as it is written behind a requirement or another hash. -/
inductive WritesHash (hash : List Char) : List Char → Prop where
  | mk {gap : Char} {fill sep : List Char} : isGap gap = true → Fills fill → Separates sep →
      WritesHash hash (gap :: (fill ++ (hashWord ++ (sep ++ hash))))

variable {t tail cs rest hash text fill sep : List Char} {hashes texts : List (List Char)}

theorem Fills.skipGap_eq (fills : Fills fill) (opens : startsBreak cs = false) :
    skipGap (fill ++ cs) = skipGap cs ∧ startsBreak (fill ++ cs) = false := by
  induction fills with
  | nil => exact ⟨rfl, opens⟩
  | @blank c fill gap _ ih =>
      exact ⟨by rw [List.cons_append, skipGap_gap gap, ih.1], not_break_of_isGap gap⟩
  | @lineEnd mark fill ends _ ih =>
      obtain ⟨mark', same, before⟩ := ends.exists_mark
      rw [List.append_nil] at same
      subst same
      have joined : LineEnd (mark ++ (fill ++ cs)) (fill ++ cs) :=
        before _ fun newline => absurd newline (head_ne_newline ih.2)
      exact ⟨by rw [List.cons_append, List.append_assoc, skipGap_joined joined, ih.1], rfl⟩

theorem skipGap_hashWord (cs : List Char) : skipGap (hashWord ++ cs) = hashWord ++ cs :=
  skipGap_plain rfl fun slash => absurd slash (by decide)

theorem Fills.skipGap_hashWord (fills : Fills fill) (cs : List Char) :
    skipGap (fill ++ (hashWord ++ cs)) = hashWord ++ cs := by
  rw [(fills.skipGap_eq rfl).1, PinFloor.skipGap_hashWord]

theorem hashWord_isPrefixOf (cs : List Char) : hashWord.isPrefixOf (hashWord ++ cs) = true :=
  List.isPrefixOf_iff_prefix.mpr (List.prefix_append _ _)

theorem IsHash.trimEnd_eq (isHash : IsHash hash) : trimEnd hash = hash := by
  obtain nothing | ⟨more, c, rfl⟩ := List.eq_nil_or_concat hash
  · exact absurd nothing isHash.filled
  · have visible := isHash.visible c (by simp)
    have whole := trimEnd_append (n := more ++ [c]) (by simp) visible []
    rwa [List.append_nil, show trimEnd [] = [] from rfl, List.append_nil,
      ← List.concat_eq_append] at whole

/-- The value of a hash ends at a blank or at the end of the text. -/
theorem IsHash.value_eq (isHash : IsHash hash) (separates : Separates sep)
    (blank : ∀ c, cs.head? = some c → isBlank c = true) :
    value (!isBlank ·) (sep ++ (hash ++ cs)) = .ok (String.ofList hash, cs) := by
  have inside : ∀ c ∈ hash, (!isBlank c) = true := fun c member => by simp [isHash.visible c member]
  have ends : ∀ c, cs.head? = some c → (!isBlank c) = false := fun c first => by simp [blank c first]
  obtain ⟨word, behind⟩ := span_append inside ends
  have finished : finishValue hash cs = .ok (String.ofList hash, cs) := by
    rw [finishValue, isHash.trimEnd_eq]
    obtain ⟨c, more, rfl⟩ := List.exists_cons_of_ne_nil isHash.filled
    rfl
  rcases separates with rfl | ⟨some, gaps⟩
  · rw [List.singleton_append, value, word, behind, finished]
  · have stops : ∀ c, (hash ++ cs).head? = .some c → isGap c = false := by
      intro c first
      rw [List.head?_append_of_ne_nil _ isHash.filled] at first
      refine Bool.eq_false_iff.mpr fun gap => ?_
      have visible := isHash.visible c (List.mem_of_head? first)
      rw [isBlank_of_isGap gap] at visible
      cases visible
    rw [value_of_gaps gaps some stops, word, behind, finished]

theorem Closes.endLine_eq (closes : Closes tail) : endLine (skipGap tail) = .ok ((), []) := by
  cases closes with
  | @blanks gaps mark gap ends =>
      rw [skipGap_append gap, ends.skipGap_eq]
      cases ends with
      | nil => rfl
      | lineEnd ends => exact endLine_of_lineEnd (stopsAtBreak_isGap.dropWhile ends) ends
  | @comment gaps comment mark gap _ oneLine ends =>
      have start : skipGap ('#' :: (comment ++ mark)) = '#' :: (comment ++ mark) :=
        skipGap_plain rfl fun slash => absurd slash (by decide)
      rw [skipGap_append gap, start, endLine_of_comment rfl, ends.skipLine_eq oneLine]

theorem Closes.not_hash (closes : Closes tail) : hashWord.isPrefixOf (skipGap tail) = false := by
  cases closes with
  | @blanks gaps mark gap ends =>
      rw [skipGap_append gap, ends.skipGap_eq]
      exact ends.not_isPrefixOf rfl
  | @comment gaps comment mark gap _ oneLine ends =>
      have start : skipGap ('#' :: (comment ++ mark)) = '#' :: (comment ++ mark) :=
        skipGap_plain rfl fun slash => absurd slash (by decide)
      rw [skipGap_append gap, start]
      rfl

theorem blank_of_written (written : List.Forall₂ WritesHash hashes texts) (closes : Closes tail)
    (c : Char) (first : (texts.flatten ++ tail).head? = some c) : isBlank c = true := by
  cases written with
  | nil => exact closes.follows.blank c first
  | cons write _ =>
      cases write with
      | mk gap =>
          cases first
          exact isBlank_of_isGap gap

theorem moreHashes_congr {ds : List Char} (same : skipGap cs = skipGap ds) :
    moreHashes cs = moreHashes ds := by
  cases word : hashWord.isPrefixOf (skipGap ds) with
  | false => rw [moreHashes_of_none word, moreHashes_of_none (same ▸ word), same]
  | true => rw [moreHashes_of_hash word, moreHashes_of_hash (same ▸ word), same]

/-- Hashes are read as they are written. -/
theorem moreHashes_written (written : List.Forall₂ WritesHash hashes texts)
    (all : ∀ hash ∈ hashes, IsHash hash) (closes : Closes tail) :
    moreHashes (texts.flatten ++ tail) = .ok (hashes.map String.ofList, skipGap tail) := by
  induction written with
  | nil => exact moreHashes_of_none closes.not_hash
  | @cons hash text hashes texts write written ih =>
      obtain ⟨first, others⟩ := List.forall_mem_cons.mp all
      cases write with
      | @mk gap fill sep isGap fills separates =>
          have valued := first.value_eq separates (blank_of_written written closes)
          have start : skipGap (gap :: (fill ++ (hashWord ++ (sep ++ (hash ++
              (texts.flatten ++ tail)))))) = hashWord ++ (sep ++ (hash ++ (texts.flatten ++ tail))) := by
            rw [skipGap_gap isGap, fills.skipGap_hashWord]
          simp only [List.flatten_cons, List.cons_append, List.append_assoc]
          rw [moreHashes_of_hash (by rw [start, hashWord_isPrefixOf]), start, List.drop_left, valued]
          simp only [ih others]
          rfl

/-- Where hashes follow a requirement, its text ends before them. -/
theorem exists_follows (written : List.Forall₂ WritesHash hashes texts)
    (all : ∀ hash ∈ hashes, IsHash hash) (closes : Closes tail) : ∃ ending rest,
      Follows (texts.flatten ++ tail) ending rest ∧
        trailingHashes ending rest = .ok (hashes.map String.ofList, []) := by
  cases written with
  | nil => exact ⟨.line, [], closes.follows, rfl⟩
  | @cons hash text hashes texts write written =>
      have more := moreHashes_written (.cons write written) all closes
      have blank := blank_of_written (.cons write written) closes
      cases write with
      | @mk gap fill sep isGap fills separates =>
          simp only [List.flatten_cons, List.cons_append, List.append_assoc] at more blank ⊢
          generalize sep ++ (hash ++ (texts.flatten ++ tail)) = left at more blank ⊢
          have start : skipGap (gap :: (fill ++ (hashWord ++ left))) = hashWord ++ left := by
            rw [skipGap_gap isGap, fills.skipGap_hashWord]
          have same : moreHashes (hashWord ++ left)
              = moreHashes (gap :: (fill ++ (hashWord ++ left))) :=
            moreHashes_congr (by rw [start, skipGap_hashWord])
          refine ⟨.options, hashWord ++ left, ⟨fun gaps before => ⟨[], by simp, ?_⟩, blank⟩, ?_⟩
          · have behind : afterGap? (gaps ++ gap :: (fill ++ (hashWord ++ left)))
                = some (skipGap (gaps ++ gap :: (fill ++ (hashWord ++ left)))) := by
              cases gaps with
              | nil => exact afterGap?_of_gap isGap _
              | cons c gaps => exact afterGap?_of_gap (before c List.mem_cons_self) _
            rw [splitStatement_gap behind, skipGap_append before, start]
            rfl
          · rw [trailingHashes, Scanner.hashes, hashWord_isPrefixOf, same, more]
            simp only [Bool.not_true, Bool.false_eq_true, if_false, closes.endLine_eq]
            rfl

/-- A requirement with hashes on lines of its own is an entry with just these hashes. Where it looks
    like a URL it is an entry without a name, and its hashes are not recorded. -/
theorem loadText_hashed (fs : FileSystem) (path : Path) {r : Requirement}
    (letter : ∃ c, t.head? = some c ∧ c.isAlphanum = true) (uninterrupted : Uninterrupted t)
    (single : t.getLast? = some '\\' → startsBreak (texts.flatten ++ tail) = false)
    (parsed : Requirement.parse? t = some r) (written : List.Forall₂ WritesHash hashes texts)
    (all : ∀ hash ∈ hashes, IsHash hash) (closes : Closes tail) :
    (¬ HasUrlComment t → RequirementsFile.loadText fs (t ++ (texts.flatten ++ tail)) path =
      .silent (.ok { requirements := [⟨r, hashes.map String.ofList, ⟨path, 1⟩⟩] })) ∧
    (HasUrlComment t → RequirementsFile.loadText fs (t ++ (texts.flatten ++ tail)) path =
      .silent (.ok { unnamed := [⟨String.ofList (trimEnd t), ⟨path, 1⟩⟩] })) := by
  obtain ⟨ending, rest, follows, trailing⟩ := exists_follows written all closes
  obtain ⟨named, target⟩ := uninterrupted.statement?_eq follows single letter parsed trailing
  have letter' : ∃ c, (t ++ (texts.flatten ++ tail)).head? = some c ∧ c.isAlphanum = true := by
    obtain ⟨c, first, letter⟩ := letter
    exact ⟨c, by rw [List.head?_append, first, Option.some_or], letter⟩
  have blanks : ∀ c ∈ [], isGap c = true := by simp
  exact ⟨fun plain => RequirementsFile.loadText_indented fs path blanks letter' (named plain) nofun,
    fun looks => RequirementsFile.loadText_indented fs path blanks letter' (target looks) nofun⟩

end PinFloor
