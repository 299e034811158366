import PinFloor.Proofs.Check.Rules
import PinFloor.Proofs.Specifier.Bounds

/-! # Pins that a requirement allows

An exact pin may be allowed by all specifiers of a requirement and still be reported as below its
floor: `==V.*` sets the floor `V`, and allows versions before `V`. There is no other way to that.
-/

namespace PinFloor

variable {fs : FileSystem} {m : Manifest} {environment : TargetEnvironment} {name : PackageName}
  {v : Version}

theorem Pin.mem_of_ofSpecifiers {specifiers : List Specifier}
    (pinned : ofSpecifiers specifiers = .exact v) : ∃ s ∈ specifiers, s.version = v := by
  unfold ofSpecifiers at pinned
  split at pinned
  · cases pinned
    exact ⟨_, List.mem_cons_self, rfl⟩
  · cases pinned
    exact ⟨_, List.mem_cons_self, rfl⟩
  · cases pinned
  · cases pinned

/-- The version of an exact pin was read. -/
theorem Entry.IsProper.version_of_pin {c : Entry} (proper : c.IsProper)
    (pinned : c.pin = .exact v) : v.IsProper := by
  unfold Entry.pin Requirement.pin at pinned
  split at pinned
  · next specifiers source =>
      obtain ⟨s, member, rfl⟩ := Pin.mem_of_ofSpecifiers pinned
      have listed : c.specifiers? = some specifiers := by
        rw [Entry.specifiers?, source]
        rfl
      exact (proper specifiers listed s member).version
  · cases pinned

namespace Manifest

variable {pin : Pin} {r : Entry}

theorem IsProper.requirement (proper : m.IsProper)
    (active : r ∈ m.requirementsOf environment name) : r.IsProper :=
  proper r (List.mem_append_left _ (mem_requirementsOf.mp active).1)

theorem IsProper.version_of_sole (proper : m.IsProper)
    (sole : pin.IsSole (m.constraintsOf environment name)) (pinned : pin = .exact v) :
    v.IsProper := by
  obtain ⟨c, member, carried⟩ := List.mem_map.mp (List.mem_of_find?_eq_some sole.first)
  refine (proper c ?_).version_of_pin (carried.trans pinned)
  exact List.mem_append_right _ (mem_constraintsOf.mp member).1

/-- A requirement that allows an exact pin finds it below its floor exactly if one of its specifiers
    overshoots the pin. -/
theorem breaks_iff_overshoots {specifiers : List Specifier} (proper : m.IsProper)
    (active : r ∈ m.requirementsOf environment name)
    (sole : (Pin.exact v).IsSole (m.constraintsOf environment name))
    (listed : r.specifiers? = some specifiers) (allowed : Specifier.allAllow specifiers v = true) :
    r.Breaks (.exact v) .belowFloor ↔ ∃ s ∈ specifiers, s.Overshoots v := by
  have floored : r.floor? = Floor.ofSpecifiers? specifiers := by
    rw [Entry.floor?, Requirement.floor?]
    exact congrArg (·.bind Floor.ofSpecifiers?) listed
  have admits {f : Floor} (floor : Floor.ofSpecifiers? specifiers = some f) :=
    Floor.admits_iff_of_allowed (proper.requirement active specifiers listed)
      (proper.version_of_sole sole rfl) allowed floor
  constructor
  · rintro ⟨f, w, floor, ⟨⟩, low⟩
    rw [floored] at floor
    by_contra fits
    push Not at fits
    rw [(admits floor).mpr fits] at low
    cases low
  · rintro ⟨s, member, overshoots⟩
    cases floor : Floor.ofSpecifiers? specifiers with
    | none =>
        have other := Floor.ofSpecifiers?_eq_none_iff.mp floor s member
        exact absurd (by simp [overshoots.1, Operator.lower]) other
    | some f =>
        refine ⟨f, v, floored.trans floor, rfl, ?_⟩
        rw [← Bool.not_eq_true, admits floor]
        exact fun fits => fits s member overshoots

end Manifest

/-- A file of one line with a requirement. -/
theorem RequirementsFile.load_line {text : List Char} {path : Path} {r : Requirement}
    (readable : fs.read path = .ok text) (opens : Scanner.skipTrivia text = text)
    (scanned : Scanner.statement? text = some (.ok (.requirement r [], []))) :
    (load fs path).value
      = .ok { requirements := [⟨r, [], ⟨path, 1⟩⟩] } := by
  have script : Script.read text = ⟨[⟨1, .requirement r []⟩], none⟩ := by
    have first : (Position.ofRest text text).line = 1 := Position.line_ofRest [] text
    rw [Script.read, Script.readFrom_of_statement text opens scanned, Script.readFrom_nil, first]
    rfl
  rw [Loading.load_eq_ofTarget]
  refine Loading.ofTarget_ok.mpr ⟨text, readable, ?_⟩
  rw [script, Loading.ofStatements_cons_ok]
  exact ⟨_, .empty, rfl, by rw [Loading.ofStatements_nil]; rfl, rfl⟩

namespace Check

/-- A version that the specifiers of a list allow is admitted by their floor, unless the list has a
    `==V.*` that overshoots: the version is preliminary to `V`, or has fewer release numbers. So a
    check of loaded files reports an exact pin that a requirement allows as below its floor only
    where the requirement has such a specifier. -/
theorem allowed_below_floor_iff_overshot :
    (∀ text written specifiers v floor, Specifier.parseList? text = some specifiers →
      Version.parse? written = some v → Specifier.allAllow specifiers v = true →
      Floor.ofSpecifiers? specifiers = some floor →
      (floor.admits v = true ↔ ∀ s ∈ specifiers, ¬ s.Overshoots v)) ∧
    ∀ fs requirements constraints m settings,
      (Manifest.ofFiles fs requirements constraints).value = .ok m →
      ∀ d ∈ (run settings m).diagnostics, ∀ name origin environment,
        d.Blames .belowFloor name origin environment →
        ∃ r ∈ m.requirementsOf environment name, r.origin.same origin = true ∧ ∃ pin : Pin,
          pin.IsSole (m.constraintsOf environment name) ∧ r.Breaks pin .belowFloor ∧
          ∀ v specifiers, pin = .exact v → r.specifiers? = some specifiers →
            Specifier.allAllow specifiers v = true → ∃ s ∈ specifiers, s.Overshoots v := by
  refine ⟨?_, ?_⟩
  · intro text written specifiers v floor listed versioned allowed floored
    exact Floor.admits_iff_of_allowed (Specifier.proper_of_parseList? listed)
      (Version.proper_of_parse? versioned) allowed floored
  · intro fs requirements constraints m settings loaded d member name origin environment blames
    obtain ⟨-, r, active, here, pin, sole, breaks, -⟩ :=
      breaks_of_blames (.inl rfl) member blames
    refine ⟨r, active, here, pin, sole, breaks, ?_⟩
    rintro v specifiers rfl listed allowed
    exact (Manifest.breaks_iff_overshoots (Manifest.proper_of_ofFiles loaded) active sole listed
      allowed).mp breaks

/-- `==1.2.*` allows `1.2a1`, which its floor `>=1.2` does not admit. -/
theorem floor_refuses_allowed_alpha :
    let specifiers : List Specifier := [⟨.matching, .ofRelease [1, 2]⟩]
    let v : Version := { Version.ofRelease [1, 2] with pre := some (.alpha, 1) }
    let floor : Floor := ⟨.ofRelease [1, 2], true⟩
    Specifier.parseList? ['=', '=', '1', '.', '2', '.', '*'] = some specifiers ∧
      Version.parse? ['1', '.', '2', 'a', '1'] = some v ∧
      Specifier.allAllow specifiers v = true ∧ Floor.ofSpecifiers? specifiers = some floor ∧
      floor.admits v = false := by
  refine ⟨?_, ?_, ?_, ?_, ?_⟩
  · cbv
  · cbv
  · decide
  · decide
  · decide

/-- `==1.2.*` allows `1.2.3` and `1.2a1`. Its floor admits the first one; the second one is reported
    as below the floor. -/
theorem allowed_by_wildcard :
    let wildcard : Specifier := ⟨.matching, .ofRelease [1, 2]⟩
    let alpha : Version := { Version.ofRelease [1, 2] with pre := some (.alpha, 1) }
    let required := ['x', '=', '=', '1', '.', '2', '.', '*']
    let pinned := ['x', '=', '=', '1', '.', '2', 'a', '1']
    let fs : FileSystem := ⟨[], [(["r"], .text required), (["c"], .text pinned)]⟩
    let m : Manifest := {
      requirements := [.plain "r" "x" [wildcard]]
      constraints := [.plain "c" "x" [⟨.equal, alpha⟩]] }
    let settings := CheckSettings.onLinux
    let environment : TargetEnvironment := ⟨⟨3, 12, none⟩, .linux⟩
    (∃ v floor, Specifier.parseList? ['=', '=', '1', '.', '2', '.', '*'] = some [wildcard] ∧
      Version.parse? ['1', '.', '2', '.', '3'] = some v ∧
      Specifier.allAllow [wildcard] v = true ∧ Floor.ofSpecifiers? [wildcard] = some floor ∧
      floor.admits v = true) ∧
    (Manifest.ofFiles fs [⟨"r"⟩] [⟨"c"⟩]).value = .ok m ∧
    ∃ d ∈ (run settings m).diagnostics,
      d.Blames .belowFloor ⟨"x"⟩ ⟨⟨"r"⟩, 1⟩ environment ∧
      ∃ r ∈ m.requirementsOf environment ⟨"x"⟩, r.Breaks (.exact alpha) .belowFloor ∧
        ∃ s ∈ [wildcard], s.Overshoots alpha := by
  intro wildcard alpha required pinned fs m settings environment
  obtain ⟨admitted, reported⟩ := allowed_below_floor_iff_overshot
  refine ⟨?_, ?_⟩
  · have listed : Specifier.parseList? ['=', '=', '1', '.', '2', '.', '*'] = some [wildcard] := by
      cbv
    have versioned : Version.parse? ['1', '.', '2', '.', '3'] = some (.ofRelease [1, 2, 3]) := by
      cbv
    have allowed : Specifier.allAllow [wildcard] (.ofRelease [1, 2, 3]) = true := by decide
    have floored : Floor.ofSpecifiers? [wildcard] = some ⟨.ofRelease [1, 2], true⟩ := by decide
    refine ⟨_, _, listed, versioned, allowed, floored, ?_⟩
    refine (admitted _ _ _ _ _ listed versioned allowed floored).mpr ?_
    rintro s (_ | ⟨_, ⟨⟩⟩) overshoots
    exact absurd overshoots.2 (by decide)
  · have first : (RequirementsFile.load fs ⟨"r"⟩).value
        = .ok { requirements := [.plain "r" "x" [wildcard]] } :=
      RequirementsFile.load_line rfl (Scanner.skipTrivia_of_other rfl rfl (by decide)) (by cbv)
    have second : (RequirementsFile.load fs ⟨"c"⟩).value
        = .ok { requirements := [.plain "c" "x" [⟨.equal, alpha⟩]] } :=
      RequirementsFile.load_line rfl (Scanner.skipTrivia_of_other rfl rfl (by decide)) (by cbv)
    have loaded : (Manifest.ofFiles fs [⟨"r"⟩] [⟨"c"⟩]).value = .ok m :=
      Manifest.addFiles_cons_ok.mpr ⟨_, first, Manifest.addFiles_cons_ok.mpr ⟨_, second, rfl⟩⟩
    have sole : (Pin.exact alpha).IsSole (m.constraintsOf environment ⟨"x"⟩) := by
      refine ⟨rfl, ?_⟩
      rintro c (_ | ⟨_, ⟨⟩⟩) -
      decide
    have breaks : Entry.Breaks (.plain "r" "x" [wildcard]) (.exact alpha) .belowFloor :=
      ⟨⟨.ofRelease [1, 2], true⟩, alpha, by decide, rfl, by decide⟩
    have inside : environment ∈ settings.matrix.environments := List.mem_cons_self
    have enabled : settings.severities.isEnabled .belowFloor = true := rfl
    have checked : (⟨"x"⟩ : PackageName) ∉ settings.ignore := List.not_mem_nil
    obtain ⟨d, member, blames⟩ :=
      exists_blames_of_breaks inside enabled checked List.mem_cons_self sole breaks
    refine ⟨loaded, d, member, blames, ?_⟩
    obtain ⟨r, active, -, pin, only, low, overshot⟩ :=
      reported _ _ _ _ _ loaded d member _ _ _ blames
    obtain rfl : pin = .exact alpha := Option.some.inj (only.first.symm.trans sole.first)
    have known : r = .plain "r" "x" [wildcard] := by
      rcases active with _ | ⟨_, ⟨⟩⟩
      rfl
    subst known
    exact ⟨_, active, low, overshot alpha _ rfl rfl (by decide)⟩

end Check

end PinFloor
