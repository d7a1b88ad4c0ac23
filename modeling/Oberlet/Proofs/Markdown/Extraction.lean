import Mathlib.Data.List.Forall2
import Oberlet.Markdown.TestCase
import Oberlet.Proofs.Invariant

/-!
# Fences that make up test cases

A document is read as its headings and fences in order, whatever parser finds them, and seen as its
test headings, each with the fences below it.
-/

namespace Oberlet.Markdown

/-- A test heading, by the name of the test, with the fences below it. -/
structure Section where
  name : String
  fences : List Fence
deriving DecidableEq, Repr

/-- The fences above the first test heading, and the test headings with those below. -/
def outline : List Block → List Fence × List Section
  | [] => ([], [])
  | .heading text :: rest =>
    match TestCase.ofHeading? text with
    | some case => ([], ⟨case.name, (outline rest).1⟩ :: (outline rest).2)
    | none => outline rest
  | .fence fence :: rest => (fence :: (outline rest).1, (outline rest).2)

namespace Fence

/-- What the fence asserts, if it is one of the three kinds that do. -/
def assertion? (f : Fence) : Option Assertion :=
  (AssertionKind.ofLanguage? f.language).map fun kind =>
    ⟨kind, TestCase.expectations f.content, f.line⟩

/-- Prose, a program or an assertion. -/
def Known (f : Fence) : Prop :=
  f.language = "" ∨ f.language = programLanguage ∨ f.assertion?.isSome

/-- The contents of the program fences. -/
def programs (fences : List Fence) : List String :=
  (fences.filter (·.language == programLanguage)).map (·.content)

end Fence

/-- The case has all that stands in the section: it holds every assertion, and the program is in the
last of the program fences, behind empty ones only. -/
structure Section.Describes (s : Section) (case : TestCase) : Prop where
  name : case.name = s.name
  known : ∀ f ∈ s.fences, f.Known
  assertions : case.assertions = s.fences.filterMap Fence.assertion?
  asserts : case.assertions ≠ []
  programs : ∃ empty, Fence.programs s.fences = List.replicate empty "" ++ [case.program]
  program : case.program ≠ ""

namespace TestCase

/-! ## Reading on -/

/-- A case of which a part has been read becomes another with the fences that follow. -/
structure Completes (case : TestCase) (fences : List Fence) (last : TestCase) : Prop where
  name : last.name = case.name
  known : ∀ f ∈ fences, f.Known
  assertions : last.assertions = case.assertions ++ fences.filterMap Fence.assertion?
  asserts : last.assertions ≠ []
  programs : ∃ empty, case.program :: Fence.programs fences =
    List.replicate empty "" ++ [last.program]
  program : last.program ≠ ""

variable {case last : TestCase} {f : Fence} {fences : List Fence} {done cases : List TestCase}

/-- Empty program fences may stand before the one that counts. -/
theorem programs_cons {a b program : String} {rest : List String} :
    (∃ empty, a :: b :: rest = List.replicate empty "" ++ [program]) ↔
      a = "" ∧ ∃ empty, b :: rest = List.replicate empty "" ++ [program] := by
  constructor
  · rintro ⟨empty, h⟩
    cases empty with
    | zero => simp at h
    | succ empty => exact ⟨(List.cons.inj h).1, empty, (List.cons.inj h).2⟩
  · rintro ⟨rfl, empty, h⟩
    exact ⟨empty + 1, congrArg ("" :: ·) h⟩

theorem program_eq {a program : String} {empty : Nat}
    (h : [a] = List.replicate empty "" ++ [program]) : a = program := by
  simpa using congrArg List.getLast? h

theorem completes_named {name : String} :
    Completes (named name) fences last ↔ Section.Describes ⟨name, fences⟩ last := by
  constructor
  · rintro ⟨hname, hknown, hassertions, hasserts, hprograms, hprogram⟩
    refine ⟨hname, hknown, hassertions, hasserts, ?_, hprogram⟩
    cases hfences : Fence.programs fences with
    | nil =>
      obtain ⟨empty, h⟩ := hprograms
      rw [hfences] at h
      exact absurd (program_eq h).symm hprogram
    | cons first rest => exact (programs_cons.mp (hfences ▸ hprograms)).2
  · rintro ⟨hname, hknown, hassertions, hasserts, ⟨empty, hprograms⟩, hprogram⟩
    exact ⟨hname, hknown, hassertions, hasserts, ⟨empty + 1, congrArg ("" :: ·) hprograms⟩,
      hprogram⟩

theorem finished_eq_ok_iff : case.finished = .ok last ↔ Completes case [] last := by
  unfold finished
  constructor
  · intro h
    split at h
    · cases h
    split at h
    · cases h
    cases h
    exact ⟨rfl, by simp, by simp, by simp_all, ⟨0, rfl⟩, by simp_all⟩
  · rintro ⟨hname, -, hassertions, hasserts, ⟨empty, hprograms⟩, hprogram⟩
    obtain ⟨name, program, assertions⟩ := case
    obtain ⟨name', program', assertions'⟩ := last
    obtain rfl : program = program' := program_eq hprograms
    simp_all

theorem completes_cons {next : TestCase} (hname : next.name = case.name) (hknown : f.Known)
    (hassertions : next.assertions = case.assertions ++ f.assertion?.toList)
    (hprograms : ∀ program, (∃ empty, case.program :: Fence.programs (f :: fences) =
        List.replicate empty "" ++ [program]) ↔
      ∃ empty, next.program :: Fence.programs fences = List.replicate empty "" ++ [program]) :
    Completes case (f :: fences) last ↔ Completes next fences last := by
  have hfilter : case.assertions ++ (f :: fences).filterMap Fence.assertion? =
      next.assertions ++ fences.filterMap Fence.assertion? := by
    rw [hassertions, List.filterMap_cons]
    cases f.assertion? <;> simp
  constructor
  · rintro ⟨hlast, hall, hassertions', hasserts, hps, hprogram⟩
    exact ⟨hlast.trans hname.symm, fun g hg => hall g (by simp [hg]), hassertions'.trans hfilter,
      hasserts, (hprograms _).mp hps, hprogram⟩
  · rintro ⟨hlast, hall, hassertions', hasserts, hps, hprogram⟩
    exact ⟨hlast.trans hname, by simpa [hknown] using hall, hassertions'.trans hfilter.symm,
      hasserts, (hprograms _).mpr hps, hprogram⟩

theorem completes_prose (h : f.language = "") :
    Completes case (f :: fences) last ↔ Completes case fences last := by
  have hassertion : f.assertion? = none := by rw [Fence.assertion?, h]; rfl
  refine completes_cons rfl (.inl h) (by simp [hassertion]) fun _ => ?_
  simp [Fence.programs, h, programLanguage]

/-- A fence with a language is added to the case, or refused. -/
theorem completes_fence (h : f.language ≠ "") : Completes case (f :: fences) last ↔
    ∃ next, case.addFence f = .ok next ∧ Completes next fences last := by
  have hprogramKind : AssertionKind.ofLanguage? programLanguage = none := by decide
  unfold addFence
  cases hkind : AssertionKind.ofLanguage? f.language with
  | some kind =>
    have hassertion : f.assertion? = some ⟨kind, expectations f.content, f.line⟩ := by
      simp [Fence.assertion?, hkind]
    have hne : f.language ≠ programLanguage := fun heq => by simp [heq, hprogramKind] at hkind
    simp only [Except.ok.injEq, exists_eq_left']
    refine completes_cons rfl (.inr (.inr (by simp [hassertion]))) (by simp [hassertion])
      fun _ => ?_
    simp [Fence.programs, hne]
  | none =>
    have hassertion : f.assertion? = none := by simp [Fence.assertion?, hkind]
    dsimp only
    by_cases hlanguage : f.language = programLanguage
    · have hprograms : Fence.programs (f :: fences) = f.content :: Fence.programs fences := by
        simp [Fence.programs, hlanguage]
      rw [if_neg (by simp [hlanguage])]
      by_cases hempty : case.program = ""
      · rw [if_neg (by simp [hempty])]
        simp only [Except.ok.injEq, exists_eq_left']
        refine completes_cons rfl (.inr (.inl hlanguage)) (by simp [hassertion]) fun _ => ?_
        rw [hprograms, programs_cons, hempty]
        exact and_iff_right rfl
      · rw [if_pos (by simpa using hempty)]
        refine iff_of_false (fun hcompletes => ?_) (by rintro ⟨next, ⟨⟩, -⟩)
        exact hempty (programs_cons.mp (hprograms ▸ hcompletes.programs)).1
    · rw [if_pos (by simpa using hlanguage)]
      refine iff_of_false (fun hcompletes => ?_) (by rintro ⟨next, ⟨⟩, -⟩)
      obtain hprose | hprogram | hsome := hcompletes.known f (by simp)
      · exact h hprose
      · exact hlanguage hprogram
      · simp [hassertion] at hsome

/-! ## Whole documents -/

theorem eq_named_of_ofHeading? {text : String} (h : ofHeading? text = some case) :
    case = named case.name := by
  unfold ofHeading? at h
  dsimp only at h
  split at h <;> cases h
  rfl

/-- There is one case for each test heading, in order, with all that is below it. -/
theorem collect_some (bs : List Block) : collect done (some case) bs = .ok cases ↔
    ∃ last rest, cases = done ++ last :: rest ∧ Completes case (outline bs).1 last ∧
      List.Forall₂ Section.Describes (outline bs).2 rest := by
  induction bs generalizing done case with
  | nil =>
    rw [collect, bind_eq_ok, outline]
    simp only [finished_eq_ok_iff, List.forall₂_nil_left_iff]
    constructor
    · rintro ⟨last, hlast, ⟨⟩⟩
      exact ⟨last, [], rfl, hlast, rfl⟩
    · rintro ⟨last, rest, rfl, hlast, rfl⟩
      exact ⟨last, hlast, rfl⟩
  | cons b rest ih =>
    cases b with
    | heading text =>
      cases hheading : ofHeading? text with
      | none => simpa only [collect, outline, hheading] using ih
      | some next =>
        simp only [collect, outline, hheading, bind_eq_ok, finished_eq_ok_iff, ih,
          List.forall₂_cons_left_iff]
        constructor
        · rintro ⟨last, hlast, first, others, rfl, hfirst, hothers⟩
          rw [eq_named_of_ofHeading? hheading] at hfirst
          exact ⟨last, first :: others, by simp, hlast, first, others, completes_named.mp hfirst,
            hothers, rfl⟩
        · rintro ⟨last, _, rfl, hlast, first, others, hfirst, hothers, rfl⟩
          refine ⟨last, hlast, first, others, by simp, ?_, hothers⟩
          rw [eq_named_of_ofHeading? hheading]
          exact completes_named.mpr hfirst
    | fence f =>
      rw [collect, outline]
      by_cases hprose : f.language = ""
      · rw [if_pos (by simp [hprose]), ih]
        simp only [completes_prose hprose]
      · rw [if_neg (by simpa using hprose)]
        dsimp only
        rw [bind_eq_ok]
        simp only [ih, completes_fence hprose]
        constructor
        · rintro ⟨next, hnext, last, others, rfl, hlast, hothers⟩
          exact ⟨last, others, rfl, ⟨next, hnext, hlast⟩, hothers⟩
        · rintro ⟨last, others, rfl, ⟨next, hnext, hlast⟩, hothers⟩
          exact ⟨next, hnext, last, others, rfl, hlast, hothers⟩

end TestCase

/-- Where no program fence is empty, a section has exactly one of them. -/
theorem Section.Describes.programs_eq {s : Section} {case : TestCase} (h : s.Describes case)
    (hfull : "" ∉ Fence.programs s.fences) : Fence.programs s.fences = [case.program] := by
  obtain ⟨empty, hprograms⟩ := h.programs
  cases empty with
  | zero => exact hprograms
  | succ empty => simp [hprograms, List.replicate_succ] at hfull

/-- The test cases of any sequence of headings and fences, and when it has any: no fence above the
first test heading has a language, and below each of them are only fences of known languages, at
least one of which asserts something, and program fences of which the last alone is not empty. There
is a case for each test heading, with its name, that program, and all of the assertions in order. -/
theorem extraction_keeps_all_fences (bs : List Block) (cases : List TestCase) :
    TestCase.collect [] none bs = .ok cases ↔
      (∀ f ∈ (outline bs).1, f.language = "") ∧
        List.Forall₂ Section.Describes (outline bs).2 cases := by
  induction bs with
  | nil =>
    rw [TestCase.collect, outline, Except.ok.injEq, List.forall₂_nil_left_iff]
    exact ⟨fun h => ⟨by simp, h.symm⟩, fun h => h.2.symm⟩
  | cons b rest ih =>
    cases b with
    | heading text =>
      cases hheading : TestCase.ofHeading? text with
      | none => simpa only [TestCase.collect, outline, hheading] using ih
      | some next =>
        simp only [TestCase.collect, outline, hheading, TestCase.collect_some,
          List.forall₂_cons_left_iff, List.not_mem_nil, false_implies, implies_true, true_and,
          List.nil_append]
        rw [TestCase.eq_named_of_ofHeading? hheading]
        simp only [TestCase.completes_named]
        constructor
        · rintro ⟨last, others, rfl, hlast, hothers⟩
          exact ⟨last, others, hlast, hothers, rfl⟩
        · rintro ⟨last, others, hlast, hothers, rfl⟩
          exact ⟨last, others, rfl, hlast, hothers⟩
    | fence f =>
      rw [TestCase.collect, outline]
      by_cases hprose : f.language = ""
      · rw [if_pos (by simp [hprose]), ih]
        simp [hprose]
      · rw [if_neg (by simpa using hprose)]
        exact iff_of_false nofun fun h => hprose (h.1 f (by simp))

/-- A test of which the first program is empty. -/
def twoPrograms : List Block :=
  [.heading "Test: a", .fence ⟨programLanguage, "", 1⟩,
    .fence ⟨programLanguage, "MODULE M; END M.\n", 5⟩, .fence ⟨"errors", "none\n", 8⟩]

example : blocks ("# Test: a\n```beb-program\n```\n".toList ++
    "```beb-program\nMODULE M; END M.\n```\n```errors\nnone\n```\n".toList) = twoPrograms := by
  decide +kernel

/-- The second program of a test is not refused where the first one is empty. -/
theorem second_program_taken :
    (outline twoPrograms).2.map (Fence.programs ·.fences) = [["", "MODULE M; END M.\n"]] ∧
      TestCase.collect [] none twoPrograms =
        .ok [⟨"a", "MODULE M; END M.\n", [⟨.errors, ["none"], 8⟩]⟩] := by
  decide

end Oberlet.Markdown
