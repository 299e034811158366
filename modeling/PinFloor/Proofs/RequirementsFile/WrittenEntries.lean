import PinFloor.Proofs.Requirement.Writing
import PinFloor.Proofs.RequirementsFile.Passing

/-! # Written entries are read back

An entry is written as its requirement and its hashes. The text of the requirement starts no comment,
because none starts in the line it was read from. So the entry is read back, unless an option seems to
start in the text: where a line was wrapped between two dashes behind a blank.
-/

namespace PinFloor

open Scanner

variable {cs rest text line fill : List Char}

/-! ## The line of a statement -/

theorem Fills.exists_joins (fills : Fills fill) (joins : Joins text line) :
    ∃ gaps, (∀ c ∈ gaps, isGap c = true) ∧ Joins (fill ++ text) (gaps ++ line) := by
  induction fills with
  | nil => exact ⟨[], nofun, joins⟩
  | @blank c fill gap _ ih =>
      obtain ⟨gaps, blanks, joins⟩ := ih
      exact ⟨c :: gaps, List.forall_mem_cons.mpr ⟨gap, blanks⟩,
        .char (not_break_of_isGap gap) joins⟩
  | @lineEnd mark fill ends _ ih =>
      obtain ⟨gaps, blanks, joins⟩ := ih
      obtain ⟨mark', same, before⟩ := ends.exists_mark
      rw [List.append_nil] at same
      subst same
      have joined : LineEnd (mark ++ (fill ++ text)) (fill ++ text) :=
        before _ fun newline => absurd newline (head_ne_newline joins.startsBreak_eq_false)
      exact ⟨gaps, blanks, by rw [List.cons_append, List.append_assoc]; exact .lineEnd joined joins⟩

theorem plain_of_gaps {gaps : List Char} (blanks : ∀ c ∈ gaps, isGap c = true) : Plain gaps := by
  intro c inside
  refine ⟨not_break_of_isGap (blanks c inside), ?_⟩
  rintro rfl
  cases blanks _ inside

/-- No comment starts in the line that the text of a statement stands for. -/
theorem exists_uncommented_line (cs : List Char) : ∃ line, Joins (splitStatement cs).1 line ∧
    Uncommented line ∧ (skipGap cs = cs → ∀ c, line.head? = some c → cs.head? = some c) := by
  induction cs using splitStatement_induction with
  | nil => exact ⟨[], by rw [splitStatement_nil]; exact .nil, .nil, nofun⟩
  | lineEnd ends => exact ⟨[], by rw [splitStatement_lineEnd ends]; exact .nil, .nil, nofun⟩
  | @plain c cs plain none ih =>
      obtain ⟨line, joins, uncommented, -⟩ := ih
      rw [splitStatement_plain plain none]
      refine ⟨c :: line, .char plain joins, .cons plain uncommented fun gap => ?_, fun _ _ same => same⟩
      rw [afterGap?_of_gap gap] at none
      cases none
  | @gap cs gap ih =>
      obtain ⟨line, joins, uncommented, start⟩ := ih
      have different : skipGap cs ≠ cs := fun same => by
        rw [afterGap?_of_eq same] at gap
        cases gap
      rw [splitStatement_gap gap]
      split
      · exact ⟨[], .nil, .nil, nofun⟩
      · split
        · exact ⟨[], .nil, .nil, nofun⟩
        · next noComment =>
            have quiet : Quiet line := ⟨uncommented, fun hash => noComment ?_⟩
            · obtain ⟨gaps, blanks, joins⟩ := (fills_gapOf cs).exists_joins joins
              exact ⟨gaps ++ line, joins, (Quiet.of_plain (plain_of_gaps blanks)).append_quiet quiet,
                fun same => absurd same different⟩
            · obtain ⟨more, first⟩ := List.head?_eq_some_iff.mp (start (skipGap_skipGap cs) '#' hash)
              rw [first]
              rfl

theorem uncommented_of_joinLines (cs : List Char) : Uncommented (joinLines (splitStatement cs).1) := by
  obtain ⟨line, joins, uncommented, -⟩ := exists_uncommented_line cs
  obtain ⟨blanks, whole, -⟩ := exists_blanks (trimStart line)
  rw [joins.joinLines_eq, trim]
  exact (uncommented.dropWhile isBlank).of_isInfix ⟨[], blanks, whole.symm⟩

/-! ## Hashes -/

theorem isHash_of_finishValue {value rest : List Char} {hash : String}
    (visible : ∀ c ∈ value, isBlank c = false)
    (finished : finishValue value cs = .ok (hash, rest)) : IsHash hash.toList := by
  obtain ⟨blanks, whole, -⟩ := exists_blanks value
  unfold finishValue at finished
  split at finished
  · cases finished
  · next some =>
      cases finished
      rw [String.toList_ofList]
      refine ⟨fun nothing => some nothing, fun c inside => visible c ?_⟩
      rw [whole]
      exact List.mem_append_left _ inside

theorem isHash_of_value {hash : String} (valued : value (!isBlank ·) cs = .ok (hash, rest)) :
    IsHash hash.toList := by
  have visible (cs : List Char) : ∀ c ∈ cs.takeWhile (!isBlank ·), isBlank c = false :=
    fun c inside => by simpa using List.mem_takeWhile_imp inside
  unfold value at valued
  split at valued
  · exact isHash_of_finishValue (visible _) valued
  · exact isHash_of_finishValue (visible _) valued
  · exact isHash_of_finishValue (visible _) valued
  · cases valued

theorem isHash_of_moreHashes {hashes : List String} (read : moreHashes cs = .ok (hashes, rest)) :
    ∀ hash ∈ hashes, IsHash hash.toList := by
  fun_induction moreHashes cs generalizing hashes rest with
  | case1 | case2 => cases read
  | case3 cs start word hash left valued hashes last more =>
      rename_i ih
      cases read
      exact List.forall_mem_cons.mpr ⟨isHash_of_value valued, ih more⟩
  | case4 =>
      cases read
      exact List.forall_mem_nil _

theorem isHash_of_trailingHashes {ending : Ending} {hashes : List String}
    (read : trailingHashes ending cs = .ok (hashes, rest)) :
    ∀ hash ∈ hashes, IsHash hash.toList := by
  cases ending with
  | line =>
      cases read
      exact List.forall_mem_nil _
  | options =>
      rw [trailingHashes, Scanner.hashes] at read
      split at read
      · cases read
      · split at read
        · cases read
        · next more =>
            obtain ⟨_, -, same⟩ := exists_of_map_eq_ok read
            cases same
            exact isHash_of_moreHashes more

/-! ## Entries -/

/-- A requirement and hashes as they are read. -/
structure IsWritable (r : Requirement) (hashes : List String) : Prop where
  uncommented : r.IsUncommented
  hashes : ∀ hash ∈ hashes, IsHash hash.toList

namespace Loading

theorem writable_of_read {line : Nat} {r : Requirement} {hashes : List String}
    (member : ⟨line, .requirement r hashes⟩ ∈ (Script.read text).statements) :
    IsWritable r hashes := by
  obtain ⟨cs, rest, parsed, trailing⟩ := Script.exists_parsed member
  exact ⟨Requirement.uncommented_of_parse? (uncommented_of_joinLines cs) parsed,
    isHash_of_trailingHashes trailing⟩

end Loading

namespace Entry

/-- How a hash is written behind an entry. -/
def hashText (hash : String) : List Char :=
  ' ' :: (hashWord ++ ' ' :: hash.toList)

theorem toList_text (e : Entry) :
    e.text.toList = e.requirement.text.toList ++ (e.hashes.map hashText).flatten := by
  have folded (hashes : List String) (start : String) :
      (hashes.foldl (fun text hash => text ++ " --hash " ++ hash) start).toList
        = start.toList ++ (hashes.map hashText).flatten := by
    induction hashes generalizing start with
    | nil => simp
    | cons hash hashes ih => simp [ih, hashText, hashWord]
  exact folded e.hashes _

theorem writes_hashText (hash : String) : WritesHash hash.toList (hashText hash) := by
  have sep : Separates [' '] := .inr ⟨List.cons_ne_nil _ _, by simp [isGap]⟩
  have written : WritesHash hash.toList (' ' :: ([] ++ (hashWord ++ ([' '] ++ hash.toList)))) :=
    .mk rfl .nil sep
  exact written

theorem uninterrupted_text {t : List Char} (uncommented : Uncommented t)
    (noOption : ∀ gap, isGap gap = true → ¬ [gap, '-', '-'] <:+: t) : Uninterrupted t where
  oneLine := uncommented.oneLine
  noComment _ isGap within := (uncommented.of_isInfix within).head_ne isGap rfl
  noOption := noOption

/-- An entry is read back from its text if its requirement is, and no option starts in it. -/
theorem loadText_text (fs : FileSystem) (path : Path) {e : Entry}
    (writable : IsWritable e.requirement e.hashes)
    (parsed : Requirement.parse? e.requirement.text.toList = some e.requirement)
    (noOption : ∀ gap, isGap gap = true → ¬ [gap, '-', '-'] <:+: e.requirement.text.toList) :
    RequirementsFile.loadText fs e.text.toList path =
      .silent (.ok { requirements := [⟨e.requirement, e.hashes, ⟨path, 1⟩⟩] }) := by
  obtain ⟨word, rest, written, -, -, -, c, first, letter⟩ :=
    Requirement.exists_word writable.uncommented
  have start : ∃ c, e.requirement.text.toList.head? = some c ∧ c.isAlphanum = true :=
    ⟨c, by rw [written, List.head?_append, first, Option.some_or], letter⟩
  have uninterrupted := uninterrupted_text
    (Requirement.quiet_text writable.uncommented).toUncommented noOption
  have texts : List.Forall₂ WritesHash (e.hashes.map String.toList) (e.hashes.map hashText) := by
    rw [List.forall₂_map_left_iff, List.forall₂_map_right_iff, List.forall₂_same]
    exact fun hash _ => writes_hashText hash
  have opens : startsBreak ((e.hashes.map hashText).flatten ++ []) = false := by
    cases e.hashes <;> rfl
  have all : ∀ hash ∈ e.hashes.map String.toList, IsHash hash := by
    simpa using writable.hashes
  have ends : Closes ([] ++ []) := .blanks (List.forall_mem_nil _) .nil
  have loaded := (loadText_hashed fs path start uninterrupted (fun _ => opens) parsed texts all ends).1
    (Requirement.not_hasUrlComment_text writable.uncommented)
  rw [toList_text]
  simpa using loaded

end Entry

/-- A requirement with hashes behind it, over any number of joined lines, is an entry with just this
    requirement and these hashes; only where a URL is in a comment directly behind its parenthesis it
    is an entry without a name. An entry that was loaded is read back from its own text, if its
    requirement is and no `--` stands behind a blank in it. -/
theorem hashed_requirements_read_back (fs : FileSystem) (path : Path) :
    (∀ {t tail : List Char} {r : Requirement} {hashes texts : List (List Char)},
      (∃ c, t.head? = some c ∧ c.isAlphanum = true) → Uninterrupted t → t.getLast? ≠ some '\\' →
      Requirement.parse? t = some r → (∀ hash ∈ hashes, IsHash hash) →
      List.Forall₂ WritesHash hashes texts → Closes tail →
      (¬ HasUrlComment t → RequirementsFile.loadText fs (t ++ (texts.flatten ++ tail)) path =
        .silent (.ok { requirements := [⟨r, hashes.map String.ofList, ⟨path, 1⟩⟩] })) ∧
      (HasUrlComment t → RequirementsFile.loadText fs (t ++ (texts.flatten ++ tail)) path =
        .silent (.ok { unnamed := [⟨String.ofList (trimEnd t), ⟨path, 1⟩⟩] }))) ∧
    ∀ {content : RequirementsFile} {e : Entry},
      ((RequirementsFile.load fs path).value = .ok content ∨
        ∃ text, (RequirementsFile.loadText fs text path).value = .ok content) →
      e ∈ content.requirements ++ content.constraints →
      Requirement.parse? e.requirement.text.toList = some e.requirement →
      (∀ gap, isGap gap = true → ¬ [gap, '-', '-'] <:+: e.requirement.text.toList) →
      ∀ (fs' : FileSystem) (path' : Path), RequirementsFile.loadText fs' e.text.toList path' =
        .silent (.ok { requirements := [⟨e.requirement, e.hashes, ⟨path', 1⟩⟩] }) := by
  refine ⟨fun letter text single parsed all written closes => ?_,
    fun {content e} loaded member parsed noOption fs' path' => ?_⟩
  · exact loadText_hashed fs path letter text (fun slash => absurd slash single) parsed written all
      closes
  · have texted : ∃ text, (RequirementsFile.loadText fs text path).value = .ok content := by
      rcases loaded with loaded | texted
      · rw [RequirementsFile.load] at loaded
        split at loaded
        · cases loaded
        · next text _ => exact ⟨text, loaded⟩
      · exact texted
    obtain ⟨text, loaded⟩ := texted
    have writable := Loading.forall_mem_entries (P := IsWritable)
      (fun _ _ _ _ => Loading.writable_of_read) (fun _ _ _ => Loading.writable_of_read) loaded
    exact e.loadText_text fs' path' (writable e member) parsed noOption

/-- Two hashes on two lines, and their entry written on one line. -/
theorem two_hashes_read_back :
    let t := ['f', '>', '=', '1']
    let r : Requirement := ⟨⟨"f"⟩, [], .specifiers [⟨.atLeast, .ofRelease [1]⟩], .leaf true⟩
    let hashes := [['a', '='], ['b']]
    let texts := [' ' :: (['\\', '\n'] ++ (hashWord ++ (['='] ++ ['a', '=']))),
      '\t' :: ([] ++ (hashWord ++ ([' ', ' '] ++ ['b'])))]
    let e : Entry := ⟨r, ["a=", "b"], ⟨⟨"r"⟩, 1⟩⟩
    (Uninterrupted t ∧ Requirement.parse? t = some r ∧ ¬ HasUrlComment t ∧
        List.Forall₂ WritesHash hashes texts ∧ Requirement.parse? r.text.toList = some r) ∧
      RequirementsFile.loadText ⟨[], []⟩ (t ++ (texts.flatten ++ [' ', '#', 'c', '\n'])) ⟨"r"⟩
        = .silent (.ok { requirements := [e] }) ∧
      RequirementsFile.loadText ⟨[], []⟩ e.text.toList ⟨"s"⟩
        = .silent (.ok { requirements := [⟨r, ["a=", "b"], ⟨⟨"s"⟩, 1⟩⟩] }) := by
  intro t r hashes texts e
  have text : Uninterrupted t := .of_any (by decide) (by decide +kernel) (by decide +kernel)
  have parsed : Requirement.parse? t = some r := by cbv
  have plain : ¬ HasUrlComment t := not_hasUrlComment_of_no_hash (by decide +kernel)
  have written : List.Forall₂ WritesHash hashes texts :=
    .cons (.mk rfl (.lineEnd .lf .nil) (.inl rfl))
      (.cons (.mk rfl .nil (.inr ⟨by simp, by simp [isGap]⟩)) .nil)
  have same : r.text.toList = t := by cbv
  have all : ∀ hash ∈ hashes, IsHash hash := List.forall_mem_cons.mpr
    ⟨⟨by decide, by simp [isBlank]⟩, List.forall_mem_cons.mpr ⟨⟨by decide, by simp [isBlank]⟩, List.forall_mem_nil _⟩⟩
  have closes : Closes ([' '] ++ '#' :: (['c'] ++ ['\n'])) :=
    .comment (List.all_eq_true.mp (by decide)) (by decide) (by simp [isBreak]) (.lineEnd .lf)
  obtain ⟨first, second⟩ := hashed_requirements_read_back ⟨[], []⟩ ⟨"r"⟩
  have loaded := (first ⟨'f', rfl, by decide⟩ text (by decide +kernel) parsed all written closes).1 plain
  have back := second (e := e) (.inr ⟨_, by rw [loaded]; rfl⟩) List.mem_cons_self
    (same ▸ parsed) (same ▸ text.noOption) ⟨[], []⟩ ⟨"s"⟩
  exact ⟨⟨text, parsed, plain, written, same ▸ parsed⟩, loaded, back⟩

/-- Two dashes between which a line was wrapped in a marker start an option on one line. A `#` directly
    behind a hash is part of it, and a URL in a comment directly behind a parenthesis takes the name
    away. -/
theorem hashed_requirements_misread :
    let wrapped := ['f', '>', '1', ';', 'o', 's', '_', 'n', 'a', 'm', 'e', '=', '=', '\'', 'a', ' ', '-',
      '\\', '\n', '-', 'b', '\'', '\n']
    let dashed : Requirement := ⟨⟨"f"⟩, [], .specifiers [⟨.greater, .ofRelease [1]⟩],
      .node (.text .osName (.before "a --b")) (.leaf false)
        (.node (.text .osName (.after "a --b")) (.leaf true) (.leaf false))⟩
    let e : Entry := ⟨dashed, [], ⟨⟨"r"⟩, 1⟩⟩
    let r : Requirement := ⟨⟨"f"⟩, [], .specifiers [⟨.greater, .ofRelease [1]⟩], .leaf true⟩
    let named := ['f', '>', '1', ' ', '-', '-', 'h', 'a', 's', 'h', '=', 'a', '#', 'c', '\n']
    let target := ['f', '(', '>', '1', ')', '#', ':', '/', '/', ' ', '-', '-', 'h', 'a', 's', 'h', '=', 'a']
    (RequirementsFile.loadText ⟨[], []⟩ wrapped ⟨"r"⟩ = .silent (.ok { requirements := [e] }) ∧
        Requirement.parse? dashed.text.toList = some dashed ∧
        ∃ error, (RequirementsFile.loadText ⟨[], []⟩ e.text.toList ⟨"r"⟩).value = .error error) ∧
      RequirementsFile.loadText ⟨[], []⟩ named ⟨"r"⟩
        = .silent (.ok { requirements := [⟨r, ["a#c"], ⟨⟨"r"⟩, 1⟩⟩] }) ∧
      RequirementsFile.loadText ⟨[], []⟩ target ⟨"r"⟩
        = .silent (.ok { unnamed := [⟨"f(>1)#://", ⟨⟨"r"⟩, 1⟩⟩] }) := by
  have split : splitStatement ['f', '>', '1', ';', 'o', 's', '_', 'n', 'a', 'm', 'e', '=', '=', '\'', 'a',
      ' ', '-', '\\', '\n', '-', 'b', '\'', '\n'] = (['f', '>', '1', ';', 'o', 's', '_', 'n', 'a', 'm',
      'e', '=', '=', '\'', 'a', ' ', '-', '\\', '\n', '-', 'b', '\''], .line, []) := by cbv
  have joined : joinLines ['f', '>', '1', ';', 'o', 's', '_', 'n', 'a', 'm', 'e', '=', '=', '\'', 'a',
      ' ', '-', '\\', '\n', '-', 'b', '\''] = ['f', '>', '1', ';', 'o', 's', '_', 'n', 'a', 'm', 'e',
      '=', '=', '\'', 'a', ' ', '-', '-', 'b', '\''] := by cbv
  have split' : splitStatement ['f', '>', '1', ' ', ';', ' ', 'o', 's', '_', 'n', 'a', 'm', 'e', ' ',
      '=', '=', ' ', '\'', 'a', ' ', '-', '-', 'b', '\''] = (['f', '>', '1', ' ', ';', ' ', 'o', 's',
      '_', 'n', 'a', 'm', 'e', ' ', '=', '=', ' ', '\'', 'a'], .options, ['-', '-', 'b', '\'']) := by cbv
  have parsed : Requirement.parse? ['f', '>', '1', ';', 'o', 's', '_', 'n', 'a', 'm', 'e', '=', '=', '\'',
      'a', ' ', '-', '-', 'b', '\''] = some ⟨⟨"f"⟩, [], .specifiers [⟨.greater, .ofRelease [1]⟩],
        .node (.text .osName (.before "a --b")) (.leaf false)
          (.node (.text .osName (.after "a --b")) (.leaf true) (.leaf false))⟩ := by cbv
  have plain : Requirement.parse? ['f', '>', '1']
      = some ⟨⟨"f"⟩, [], .specifiers [⟨.greater, .ofRelease [1]⟩], .leaf true⟩ := by cbv
  have commented : Requirement.parse? ['f', '(', '>', '1', ')', '#', ':', '/', '/']
      = some ⟨⟨"f"⟩, [], .specifiers [⟨.greater, .ofRelease [1]⟩], .leaf true⟩ := by cbv
  intro wrapped dashed e r named target
  have scanned : statement? wrapped = some (.ok (.requirement dashed [], [])) := by
    rw [statement?, if_neg (by decide), isUnnamed_of_cut rfl (by decide +kernel), requirement_eq,
      split, joined, parsed]
    rfl
  have written : e.text.toList = ['f', '>', '1', ' ', ';', ' ', 'o', 's', '_', 'n', 'a', 'm', 'e', ' ',
      '=', '=', ' ', '\'', 'a', ' ', '-', '-', 'b', '\''] := by cbv
  have refused : ∃ refusal, statement? e.text.toList = some (.error refusal) := by
    rw [written, statement?, if_neg (by decide), isUnnamed_of_cut rfl (by decide +kernel),
      requirement_eq, split']
    cases Requirement.parse? _ <;> exact ⟨_, rfl⟩
  have hashed (hash : List Char) : List.Forall₂ WritesHash [hash]
      [' ' :: ([] ++ (hashWord ++ (['='] ++ hash)))] := .cons (.mk rfl .nil (.inl rfl)) .nil
  refine ⟨⟨?_, by cbv, ?_⟩, ?_, ?_⟩
  · have blanks : ∀ c ∈ [], isGap c = true := by simp
    exact RequirementsFile.loadText_indented _ _ blanks ⟨'f', rfl, by decide⟩ scanned (by simp)
  · obtain ⟨refusal, refused⟩ := refused
    have start : skipTrivia e.text.toList = e.text.toList := by
      rw [written]
      exact skipTrivia_inName rfl _
    rw [RequirementsFile.loadText, Script.read, Script.readFrom_of_error (start ▸ refused),
      Loading.ofStatements_nil]
    exact ⟨_, rfl⟩
  · have text : Uninterrupted ['f', '>', '1'] :=
      .of_any (by decide) (by decide +kernel) (by decide +kernel)
    have all : ∀ hash ∈ [['a', '#', 'c']], IsHash hash :=
      List.forall_mem_singleton.mpr ⟨by decide, by simp [isBlank]⟩
    have closes : Closes ([] ++ ['\n']) := .blanks (List.forall_mem_nil _) (.lineEnd .lf)
    exact (loadText_hashed _ _ ⟨'f', rfl, by decide⟩ text (by simp) plain (hashed _) all closes).1
      (not_hasUrlComment_of_no_hash (by decide +kernel))
  · have text : Uninterrupted ['f', '(', '>', '1', ')', '#', ':', '/', '/'] :=
      .of_any (by decide) (by decide +kernel) (by decide +kernel)
    have all : ∀ hash ∈ [['a']], IsHash hash :=
      List.forall_mem_singleton.mpr ⟨by decide, by simp [isBlank]⟩
    have closes : Closes ([] ++ []) := .blanks (List.forall_mem_nil _) .nil
    exact (loadText_hashed _ _ ⟨'f', rfl, by decide⟩ text (by simp) commented (hashed _) all closes).2
      ⟨['f', '(', '>', '1'], [':', '/', '/'], rfl, List.all_eq_true.mp (by decide), by decide⟩

end PinFloor
