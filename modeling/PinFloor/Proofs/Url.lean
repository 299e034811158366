import Mathlib
import PinFloor.Proofs.Text.Comments
import PinFloor.Proofs.Text.Decimal
import PinFloor.Url

/-! # URLs do not start comments

Blanks are encoded in all parts of a URL but one: a path that does not start with `/` is written with
its spaces. No `#` comes to stand behind one of these if none did in the text that was read.
-/

namespace PinFloor.Url

open Scanner

variable {cs rest host port : List Char} {p : Char → Bool} {special : Bool}

/-! ## Encoded parts -/

theorem plain_hexDigit : ∀ n < 16,
    isGap (hexDigit n) = false ∧ isBreak (hexDigit n) = false ∧ hexDigit n ≠ '#' := by
  decide +kernel

/-- What is written for an encoded character. -/
def escape (c : Char) : List Char :=
  (String.utf8EncodeChar c).flatMap fun b =>
    ['%', hexDigit (b.toNat / 16), hexDigit (b.toNat % 16)]

theorem encode_cons (p : Char → Bool) (c : Char) (cs : List Char) :
    encode p (c :: cs) = (if p c then escape c else [c]) ++ encode p cs :=
  rfl

theorem plain_of_mem_escape {c d : Char} (inside : d ∈ escape c) :
    isGap d = false ∧ isBreak d = false ∧ d ≠ '#' := by
  obtain ⟨b, -, inside⟩ := List.mem_flatMap.mp inside
  have small : b.toNat < 256 := b.toNat_lt
  simp only [List.mem_cons, List.not_mem_nil, or_false] at inside
  rcases inside with rfl | rfl | rfl
  · decide
  · exact plain_hexDigit _ (by omega)
  · exact plain_hexDigit _ (by omega)

theorem escape_ne_nil (c : Char) : escape c ≠ [] := by
  have some : String.utf8EncodeChar c ≠ [] := by
    rw [← List.length_pos_iff, String.length_utf8EncodeChar]
    exact c.utf8Size_pos
  obtain ⟨b, bytes, encoded⟩ := List.exists_cons_of_ne_nil some
  rw [escape, encoded]
  exact List.cons_ne_nil _ _

/-- Encoding some characters starts no comment, and ends none. -/
theorem uncommented_encode {tail tail' : List Char} (text : Uncommented (cs ++ tail))
    (behind : Uncommented tail') (start : tail'.head? = some '#' → tail.head? = some '#') :
    Uncommented (encode p cs ++ tail') ∧
      ((encode p cs ++ tail').head? = some '#' → (cs ++ tail).head? = some '#') := by
  induction cs with
  | nil => exact ⟨behind, start⟩
  | cons c cs ih =>
      obtain ⟨rest, head⟩ := ih text.tail
      rw [encode_cons, List.append_assoc]
      split
      · refine ⟨Solid.append_uncommented (fun d inside => ?_) rest, fun hash => ?_⟩
        · exact ⟨(plain_of_mem_escape inside).1, (plain_of_mem_escape inside).2.1⟩
        · obtain ⟨d, more, escaped⟩ := List.exists_cons_of_ne_nil (escape_ne_nil c)
          have other : d ≠ '#' := (plain_of_mem_escape (c := c) (escaped ▸ List.mem_cons_self)).2.2
          rw [escaped] at hash
          exact absurd (Option.some.inj hash) other
      · exact ⟨.cons (text.oneLine c List.mem_cons_self) rest fun gap hash =>
          text.head_ne gap (head hash), id⟩

/-- A class of characters with all blanks and line ends. -/
def Covers (p : Char → Bool) : Prop :=
  ∀ c, p c = false → isGap c = false ∧ isBreak c = false

theorem Covers.of_control (more : ∀ c, p c = false → isControl c = false ∧ c ≠ ' ') : Covers p := by
  intro c plain
  have holds : (!isControl c && decide (c ≠ ' ')) = true := by simpa using more c plain
  exact solid_of (p := fun c => !isControl c && decide (c ≠ ' ')) (by simp [isControl]) holds

theorem covers_inFragment : Covers inFragment :=
  .of_control fun c plain => by
    simp only [inFragment, String.contains_char_eq, Bool.or_eq_false_iff] at plain
    exact ⟨plain.1, by rintro rfl; simp at plain⟩

theorem covers_inQuery (special : Bool) : Covers (inQuery special) :=
  .of_control fun c plain => by
    simp only [inQuery, String.contains_char_eq, Bool.or_eq_false_iff] at plain
    exact ⟨plain.1.1, by rintro rfl; simp at plain⟩

theorem Covers.mono {q : Char → Bool} (covers : Covers p) (more : ∀ c, q c = false → p c = false) :
    Covers q :=
  fun c plain => covers c (more c plain)

theorem covers_inPath : Covers inPath :=
  covers_inFragment.mono fun c plain => by simp_all [inPath]

theorem covers_inUserinfo : Covers inUserinfo :=
  covers_inPath.mono fun c plain => by simp_all [inUserinfo]

theorem solid_encode (kept : ∀ c ∈ cs, p c = false → isGap c = false ∧ isBreak c = false) :
    Solid (encode p cs) := by
  induction cs with
  | nil => nofun
  | cons c cs ih =>
      obtain ⟨first, others⟩ := List.forall_mem_cons.mp kept
      rw [encode_cons]
      split
      · refine Solid.append (fun d inside => ?_) (ih others)
        exact ⟨(plain_of_mem_escape inside).1, (plain_of_mem_escape inside).2.1⟩
      · next plain =>
          obtain ⟨gap, plain⟩ := first (by simpa using plain)
          exact .cons gap plain (ih others)

theorem Covers.solid_encode (covers : Covers p) (cs : List Char) : Solid (encode p cs) :=
  Url.solid_encode fun c _ => covers c

/-! ## Hosts -/

/-- Changing letters to lower case makes no blank and no line end. -/
theorem solid_map_toLower (text : Solid cs) : Solid (cs.map Char.toLower) := by
  intro d inside
  obtain ⟨c, member, rfl⟩ := List.mem_map.mp inside
  by_cases upper : c.isUpper = true
  · have letter : c.toLower.isAlpha = true := by
      simp [Char.isAlpha, upper]
    exact solid_of (p := Char.isAlpha) (by decide) letter
  · rw [Char.toLower_eq_of_not_isUpper upper]
    exact text c member

theorem solid_of_not_forbidden (plain : ∀ c ∈ cs, isForbidden c = false) : Solid cs :=
  fun c inside => solid_of (p := (!isForbidden ·)) (by simp [isForbidden]) (by simp [plain c inside])

theorem solid_digits (n : Nat) : Solid (Decimal.digits n) :=
  fun c inside => solid_of (p := Char.isDigit) (by decide) (Decimal.isDigit_of_mem_digits n c inside)

theorem solid_numericHost? {parts : List (List Char)} (read : numericHost? parts = some host) :
    Solid host := by
  simp only [numericHost?, Option.bind_eq_bind, Option.bind_eq_some_iff] at read
  obtain ⟨numbers, -, last, -, read⟩ := read
  split at read
  · cases read
  · split at read
    · cases read
    · cases read
      rw [String.toList_intercalate]
      refine forall_mem_intercalate (by simp [isGap, isBreak]) fun part member => ?_
      simp only [List.map_map, List.mem_map, Function.comp, Decimal.text, String.toList_ofList]
        at member
      obtain ⟨i, -, rfl⟩ := member
      exact solid_digits _

theorem solid_domain? (read : domain? cs = some host) : Solid host := by
  simp only [domain?] at read
  split at read
  · cases read
  · next allowed =>
      have plain : Solid ((decode cs).map Char.toLower) := solid_of_not_forbidden fun c inside => by
        simp only [not_or, List.any_eq_true, Bool.or_eq_true, not_exists, not_and, Bool.not_eq_true] at allowed
        exact (allowed.2 c inside).1.1
      split at read
      · split at read
        · exact solid_numericHost? read
        · cases read
          exact plain
      · cases read

theorem solid_host? (read : host? special cs = some host) : Solid host := by
  unfold host? at read
  split at read
  · next rest =>
      simp only [Option.ite_none_right_eq_some] at read
      obtain ⟨⟨last, inner⟩, same⟩ := read
      cases same
      refine solid_map_toLower (.cons rfl rfl ?_)
      obtain ⟨more, rfl⟩ := List.getLast?_eq_some_iff.mp last
      refine Solid.append (fun c inside => ?_) (.cons rfl rfl nofun)
      rw [List.dropLast_concat] at inner
      exact solid_of (p := fun c => (hexValue? c).isSome || ":.".contains c)
        (by simp [String.contains_char_eq, hexValue?]) (List.all_eq_true.mp inner c inside)
  · split at read
    · exact solid_domain? read
    · split at read
      · cases read
      · next allowed =>
          cases read
          have plain := solid_of_not_forbidden (by simpa using allowed)
          exact solid_encode fun c inside _ => plain c inside

/-! ## The other parts -/

theorem solid_port? {scheme : String} (read : port? scheme cs = some port) : Solid port := by
  unfold port? at read
  split at read
  · cases read
    nofun
  · obtain ⟨n, -, read⟩ := Option.bind_eq_some_iff.mp read
    split at read
    · cases read
    · split at read
      · cases read
        nofun
      · cases read
        exact .cons rfl rfl (solid_digits n)

theorem solid_userinfo (cs : List Char) : Solid (userinfo cs) := by
  simp only [userinfo]
  split
  · nofun
  · refine .append (.append (covers_inUserinfo.solid_encode _) ?_) (.cons rfl rfl nofun)
    split
    · nofun
    · exact .cons rfl rfl (covers_inUserinfo.solid_encode _)

theorem solid_authority? {scheme : String} {authority : List Char}
    (read : authority? scheme cs = some authority) : Solid authority := by
  simp only [authority?, Option.bind_eq_bind, Option.bind_eq_some_iff] at read
  obtain ⟨host, hosted, port, ported, read⟩ := read
  split at read
  · cases read
  · cases read
    exact .append (.append (solid_userinfo _) (solid_host? hosted)) (solid_port? ported)

theorem solid_of_mem_resolve {done segments : List (List Char)} (solid : ∀ s ∈ done, Solid s) :
    ∀ s ∈ resolve done segments, Solid s := by
  induction segments generalizing done with
  | nil => exact solid
  | cons segment segments ih =>
      have here : ∀ s ∈ (if segments.isEmpty then [[]] else []), Solid s := by
        split <;> simp [Solid]
      rw [resolve]
      refine ih ?_
      split
      · exact List.forall_mem_append.mpr
          ⟨fun s member => solid s (List.mem_of_mem_dropLast member), here⟩
      · split
        · exact List.forall_mem_append.mpr ⟨solid, here⟩
        · refine List.forall_mem_append.mpr ⟨solid, ?_⟩
          simpa using covers_inPath.solid_encode segment

theorem solid_flatMap_slash {segments : List (List Char)} (solid : ∀ s ∈ segments, Solid s) :
    Solid (segments.flatMap ('/' :: ·)) := by
  intro c inside
  obtain ⟨s, member, inside⟩ := List.mem_flatMap.mp inside
  exact Solid.cons rfl rfl (solid s member) c inside

theorem solid_pathText (special : Bool) (cs : List Char) : Solid (pathText special cs) := by
  cases cs with
  | nil =>
      rw [pathText]
      split
      · exact .cons rfl rfl .nil
      · exact .nil
  | cons c cs => exact solid_flatMap_slash (solid_of_mem_resolve (List.forall_mem_nil _))

theorem solid_fragment (cs : List Char) : Solid (match cs.dropWhile (· ≠ '#') with
    | [] => []
    | mark :: rest => mark :: encode inFragment rest) := by
  have stop := List.head?_dropWhile_not (· ≠ '#') cs
  split
  · exact .nil
  · next mark rest found =>
      rw [found] at stop
      obtain rfl : mark = '#' := by simpa using stop
      exact .cons rfl rfl (covers_inFragment.solid_encode rest)

/-- A query and a fragment start with their marks. -/
theorem tailText_of_head (special : Bool) (head : ∀ c, cs.head? = some c → c = '?' ∨ c = '#') :
    Solid (tailText special cs) ∧ (tailText special cs).head? = cs.head? := by
  have fragment := solid_fragment cs
  simp only [tailText]
  cases cs with
  | nil => exact ⟨.nil, rfl⟩
  | cons c cs =>
      rcases head c rfl with rfl | rfl
      · refine ⟨.append ?_ fragment, rfl⟩
        exact .cons rfl rfl ((covers_inQuery special).solid_encode _)
      · exact ⟨fragment, rfl⟩

/-- A character that ends a path. -/
def endsPath (c : Char) : Bool :=
  c = '?' || c = '#'

theorem tailText_dropWhile (special : Bool) (cs : List Char) :
    Solid (tailText special (cs.dropWhile (!endsPath ·))) ∧
      (tailText special (cs.dropWhile (!endsPath ·))).head? = (cs.dropWhile (!endsPath ·)).head? := by
  refine tailText_of_head special fun c first => ?_
  have stop := List.head?_dropWhile_not (!endsPath ·) cs
  rw [first] at stop
  simpa [endsPath, or_iff_not_imp_left] using stop

/-- What stands behind `//`. -/
theorem solid_located {scheme : String} {place path text : List Char}
    (read : (authority? scheme place).map (fun authority => '/' :: '/' :: authority
      ++ pathText special path ++ tailText special (rest.dropWhile (!endsPath ·))) = some text) :
    Solid text := by
  obtain ⟨authority, placed, same⟩ := Option.map_eq_some_iff.mp read
  cases same
  have front : Solid ('/' :: '/' :: authority) :=
    .cons rfl rfl (.cons rfl rfl (solid_authority? placed))
  exact .append (.append front (solid_pathText special path)) (tailText_dropWhile special rest).1

theorem uncommented_of_afterScheme? {scheme : String} {text : List Char} (line : Uncommented cs)
    (read : afterScheme? scheme cs = some text) : Uncommented text := by
  simp only [afterScheme?] at read
  split at read
  · exact (solid_located read).uncommented
  · split at read
    · exact (solid_located read).uncommented
    · cases read
      exact (Solid.append (solid_pathText _ _) (tailText_dropWhile _ _).1).uncommented
    · cases read
      obtain ⟨solid, head⟩ := tailText_dropWhile (defaultPort? scheme).isSome cs
      rw [← List.takeWhile_append_dropWhile (p := (!endsPath ·)) (l := cs)] at line
      exact (uncommented_encode line solid.uncommented fun hash => head ▸ hash).1

theorem quiet_of_ofPath? {url : Url} (read : ofPath? cs = some url) : Quiet url.text.toList := by
  have covers : Covers fun c => inPath c || c = '%' || c = '\\' :=
    covers_inPath.mono fun c plain => by simp_all
  have marked (c : Char) (first : (cs.dropWhile (· ≠ '#')).head? = some c) : c = '?' ∨ c = '#' := by
    have stop := List.head?_dropWhile_not (· ≠ '#') cs
    rw [first] at stop
    exact .inr (by simpa using stop)
  have tail := (tailText_of_head false marked).1
  unfold ofPath? at read
  split at read
  · simp only [Option.some.injEq] at read
    subst read
    have path : Quiet "file:/".toList := .of_plain (by simp [Plain, isBreak])
    have whole (cs : List Char) :
        ("file://" ++ String.ofList cs).toList = "file:/".toList ++ '/' :: cs := by simp
    rw [whole]
    refine path.append (.of_word rfl rfl (by decide) (Solid.uncommented (.append ?_ tail)))
    split
    · exact .cons rfl rfl .nil
    · next names _ =>
        intro c inside
        obtain ⟨s, -, inside⟩ := List.mem_flatMap.mp inside
        exact Solid.cons rfl rfl (covers.solid_encode s) c inside
  · cases read

theorem exists_of_splitScheme? {scheme : String} (read : splitScheme? cs = some (scheme, rest)) :
    rest <:+ cs := by
  simp only [splitScheme?] at read
  split at read
  · next split =>
      simp only [Option.ite_none_right_eq_some] at read
      obtain ⟨-, same⟩ := read
      cases same
      exact (List.suffix_cons ':' rest).trans (split ▸ List.dropWhile_suffix _)
  · cases read

theorem quiet_of_mem_schemes {scheme : String} (listed : scheme ∈ schemes) :
    Quiet scheme.toList := by
  have all : (schemes.all fun s => s.toList.all fun c => !isBreak c && c != '#') = true := by
    decide +kernel
  have plain := List.all_eq_true.mp (List.all_eq_true.mp all scheme listed)
  exact .of_plain fun c inside => by simpa using plain c inside

/-- A URL that is read from a text without comments starts no comment either. -/
theorem quiet_of_parse? {url : Url} (text : Uncommented cs) (read : parse? cs = some url) :
    Quiet url.text.toList := by
  simp only [parse?] at read
  split at read
  · exact quiet_of_ofPath? read
  · next scheme rest _ split =>
      split at read
      · next listed =>
          obtain ⟨found, behind, same⟩ := Option.map_eq_some_iff.mp read
          cases same
          have inner : Uncommented rest := by
            refine text.of_isInfix (.trans (exists_of_splitScheme? split).isInfix ?_)
            rw [dropTailWhile, ← List.reverse_infix, List.reverse_reverse]
            exact .trans (List.dropWhile_suffix _).isInfix
              (List.reverse_infix.mpr (List.dropWhile_suffix _).isInfix)
          have kept : Uncommented found := uncommented_of_afterScheme?
            (inner.filter fun c inside dropped => by
              have plain := inner.oneLine c inside
              simp only [isBreak, isGap] at plain ⊢
              simp_all) behind
          have whole : (scheme ++ ":" ++ String.ofList found).toList
              = scheme.toList ++ ':' :: found := by simp
          rw [whole]
          exact (quiet_of_mem_schemes listed).append (.of_word rfl rfl (by decide) kept)
      · exact quiet_of_ofPath? read
  · exact quiet_of_ofPath? read

end PinFloor.Url
