import Oberlet.Proofs.Analysis.Store
import Oberlet.Proofs.Invariant
import Oberlet.Proofs.Symbol.Table

/-!
# Reports of an analysis

The analysis of a part of a body does not look at what was found before. It returns a value, makes
findings and records diagnostics, always the same; all that can come between is that the store
refuses a finding.
-/

namespace Oberlet

variable {α β : Type}

/-- What an analysis does. -/
structure Report (α : Type) where
  value : α
  findings : List Finding
  errors : List Diagnostic

namespace Report

def followedBy (r : Report α) (r' : Report β) : Report β :=
  ⟨r'.value, r.findings ++ r'.findings, r.errors ++ r'.errors⟩

/-- Reports one after the other. -/
def all (rs : List (Report Unit)) : Report Unit :=
  ⟨(), rs.flatMap (·.findings), rs.flatMap (·.errors)⟩

theorem all_single (r : Report Unit) : all [r] = r := by simp [all]

theorem all_append (rs rs' : List (Report Unit)) :
    all (rs ++ rs') = (all rs).followedBy (all rs') := by
  simp [all, followedBy]

/-- The analysis that does what a report says. -/
def perform (r : Report α) : Checker α := fun notes =>
  (notes.annotations.annotateAll r.findings).map fun annotations =>
    (r.value, ⟨annotations, notes.errors ++ r.errors⟩)

theorem perform_nil (a : α) : (⟨a, [], []⟩ : Report α).perform = pure a := by
  funext notes
  change Except.ok (a, (⟨notes.annotations, notes.errors ++ []⟩ : Notes)) = Except.ok (a, notes)
  rw [List.append_nil]

variable {r : Report α} {r' : Report β}

/-- To carry out a report and go on is to carry out both. -/
theorem perform_bind {f : α → Checker β} (h : f r.value = r'.perform) :
    r.perform >>= f = (r.followedBy r').perform := by
  funext notes
  change Except.bind (Except.map _ (notes.annotations.annotateAll r.findings))
    (fun p : α × Notes => f p.1 p.2) =
      Except.map _ (notes.annotations.annotateAll (r.findings ++ r'.findings))
  rw [Annotations.annotateAll_append]
  cases notes.annotations.annotateAll r.findings with
  | error fault => rfl
  | ok a =>
    change f r.value ⟨a, notes.errors ++ r.errors⟩ = Except.map _ (a.annotateAll r'.findings)
    rw [h, perform, followedBy, List.append_assoc]

theorem perform_record (d : Diagnostic) :
    Checker.record d = (⟨(), [], [d]⟩ : Report Unit).perform := rfl

theorem perform_single (finding : Finding) : (do
    let notes ← get
    let annotations ← liftM (notes.annotations.annotate finding)
    set { notes with annotations } : Checker Unit) =
      (⟨(), [finding], []⟩ : Report Unit).perform := by
  funext notes
  change Except.bind (Except.bind (notes.annotations.annotate finding)
    fun a => Except.ok (a, notes)) (fun p => Except.ok ((), { notes with annotations := p.1 })) =
      Except.map _ (Except.bind (notes.annotations.annotate finding) Except.ok)
  rw [List.append_nil]
  cases notes.annotations.annotate finding <;> rfl

theorem perform_lift (r : Report α) : (liftM r.perform : Typing α).run =
    (⟨.ok r.value, r.findings, r.errors⟩ : Report (Except Diagnostic α)).perform := by
  funext notes
  change Except.bind (Except.map _ (notes.annotations.annotateAll r.findings)) _ = Except.map _ _
  cases notes.annotations.annotateAll r.findings <;> rfl

theorem perform_type? {t : Typing α} {r : Report (Except Diagnostic α)} (h : t.run = r.perform) :
    t.type? = (⟨r.value.toOption, r.findings, r.errors⟩ : Report (Option α)).perform := by
  funext notes
  change Except.bind (t.run notes) _ = Except.map _ (notes.annotations.annotateAll r.findings)
  rw [h]
  change Except.bind (Except.map _ (notes.annotations.annotateAll r.findings)) _ = _
  cases notes.annotations.annotateAll r.findings with
  | error fault => rfl
  | ok a => cases r.value <;> rfl

/-- All diagnostics come from some analyses, one after the other. -/
def Gathers (cs : List (Checker Unit)) (r : Report α) : Prop :=
  ∃ rs, cs = rs.map perform ∧ (all rs).findings.Sublist r.findings ∧ r.errors = (all rs).errors

theorem Gathers.nil (h : r.errors = []) : r.Gathers [] :=
  ⟨[], rfl, List.nil_sublist _, h⟩

theorem Gathers.errors_eq_nil (h : r.Gathers []) : r.errors = [] := by
  obtain ⟨rs, hrs, -, herrors⟩ := h
  rw [herrors, List.map_eq_nil_iff.mp hrs.symm]
  rfl

theorem Gathers.append {cs cs' : List (Checker Unit)} (h : r.Gathers cs) (h' : r'.Gathers cs') :
    (r.followedBy r').Gathers (cs ++ cs') := by
  obtain ⟨rs, rfl, hfindings, herrors⟩ := h
  obtain ⟨rs', rfl, hfindings', herrors'⟩ := h'
  refine ⟨rs ++ rs', List.map_append.symm, ?_, ?_⟩
  · rw [all_append]
    exact hfindings.append hfindings'
  · rw [all_append, followedBy, herrors, herrors']
    rfl

end Report

/-! ## Judgements -/

/-- Causes that are found in declarations, and never in statements. -/
def Diagnostic.Cause.ofDeclaration : Cause → Bool
  | duplicateName _ | duplicateBuiltin _ _ | arrayResult _ _ | alreadyDefined _
  | signatureMismatch _ => true
  | _ => false

/-- There is room for the findings of a report. A diagnostic that it returns is the last that was
recorded, and the others come from given analyses. Its value is sane if all around it is. Nothing is
wrong exactly when the value is `good`, and then all findings of `noted` have been made. -/
structure Report.Judges (S : Prop) (room : Room) (cs : List (Checker Unit)) (sane good : α → Prop)
    (noted : Finding → Prop) (r : Report (Except Diagnostic α)) : Prop where
  fits : Fits S room r.findings
  causes : ∀ d ∈ r.errors, d.cause.ofDeclaration = false
  last : ∀ d, r.value = .error d → ∃ before, r.errors = before ++ [d] ∧ (cs = [] → before = [])
  gathers : ∀ a, r.value = .ok a → r.Gathers cs
  sane : S → ∀ a, r.value = .ok a → sane a
  sound : r.errors = [] → ∀ a, r.value = .ok a → good a
  complete : ∀ a, good a → r.errors = [] ∧ r.value = .ok a
  entered : r.errors = [] → ∀ finding, noted finding → finding ∈ r.findings

section

variable {S : Prop} {room room' : Room} {cs cs' : List (Checker Unit)} {sane good good' : α → Prop}
  {noted noted' : Finding → Prop}

namespace Report.Judges

variable {r : Report (Except Diagnostic α)}

theorem errors_ne_nil {d : Diagnostic} (hr : r.Judges S room cs sane good noted)
    (hvalue : r.value = .error d) : r.errors ≠ [] := by
  obtain ⟨before, heq, -⟩ := hr.last d hvalue
  simp [heq]

/-- If nothing is wrong, the value is right. -/
theorem exists_good (h : r.Judges S room cs sane good noted) (herrors : r.errors = []) :
    ∃ a, r.value = .ok a ∧ good a := by
  cases hvalue : r.value with
  | error d => exact (h.errors_ne_nil hvalue herrors).elim
  | ok a => exact ⟨a, rfl, h.sound herrors a hvalue⟩

theorem followedBy {sane' : β → Prop} {good' : α → β → Prop} {noted' : α → Finding → Prop}
    {r' : Report (Except Diagnostic β)} {a : α} (hr : r.Judges S room cs sane good noted)
    (hvalue : r.value = .ok a) (hr' : r'.Judges S room' cs' sane' (good' a) (noted' a)) :
    (r.followedBy r').Judges S (fun key => room key + room' key) (cs ++ cs') sane'
      (fun b => ∃ a, good a ∧ good' a b)
      (fun finding => ∀ a, good a → noted finding ∨ noted' a finding) := by
  have heq (a' : α) (ha' : good a') : a' = a := by
    have := (hr.complete a' ha').2
    rw [hvalue] at this
    exact (Except.ok.inj this).symm
  have hgathers := hr.gathers a hvalue
  refine ⟨hr.fits.append hr'.fits, List.forall_mem_append.mpr ⟨hr.causes, hr'.causes⟩, ?_,
    fun b hb => hgathers.append (hr'.gathers b hb), hr'.sane, ?_, ?_, ?_⟩
  · intro d hd
    obtain ⟨before, hlast, hbefore⟩ := hr'.last d hd
    refine ⟨r.errors ++ before, by simp [Report.followedBy, hlast], fun hnil => ?_⟩
    obtain ⟨rfl, rfl⟩ := List.append_eq_nil_iff.mp hnil
    rw [hgathers.errors_eq_nil, hbefore rfl, List.append_nil]
  · intro herrors b hb
    obtain ⟨h₁, h₂⟩ := List.append_eq_nil_iff.mp herrors
    exact ⟨a, hr.sound h₁ a hvalue, hr'.sound h₂ b hb⟩
  · rintro b ⟨a', ha', hb⟩
    obtain rfl := heq a' ha'
    have := hr'.complete b hb
    exact ⟨by simp [Report.followedBy, (hr.complete _ ha').1, this.1], this.2⟩
  · intro herrors finding hfinding
    obtain ⟨h₁, h₂⟩ := List.append_eq_nil_iff.mp herrors
    rcases hfinding a (hr.sound h₁ a hvalue) with hfinding | hfinding
    · exact List.mem_append_left _ (hr.entered h₁ finding hfinding)
    · exact List.mem_append_right _ (hr'.entered h₂ finding hfinding)

end Report.Judges

namespace Typing

/-- An analysis does what a report says that says what is right. -/
def Judged (S : Prop) (room : Room) (cs : List (Checker Unit)) (sane good : α → Prop)
    (noted : Finding → Prop) (t : Typing α) : Prop :=
  ∃ r : Report (Except Diagnostic α), t.run = r.perform ∧ r.Judges S room cs sane good noted

namespace Judged

variable {t : Typing α} {a : α} {id : Nat} {cause : Diagnostic.Cause} {span : Span}

theorem imp (h : Judged S room cs sane good noted t) (hroom : ∀ key, room key ≤ room' key)
    (hcs : cs = cs') (hgood : ∀ a, good a ↔ good' a)
    (hnoted : ∀ a, good a → ∀ finding, noted' finding → noted finding) :
    Judged S room' cs' sane good' noted' t := by
  obtain ⟨r, hrun, hr⟩ := h
  subst hcs
  refine ⟨r, hrun, hr.fits.mono hroom, hr.causes, hr.last, hr.gathers, hr.sane, ?_, ?_, ?_⟩
  · exact fun herrors a hvalue => (hgood a).mp (hr.sound herrors a hvalue)
  · exact fun a ha => hr.complete a ((hgood a).mpr ha)
  · intro herrors finding hfinding
    obtain ⟨a, -, ha⟩ := hr.exists_good herrors
    exact hr.entered herrors finding (hnoted a ha finding hfinding)

theorem notes {findings : List Finding}
    (hrun : t.run = (⟨.ok a, findings, []⟩ : Report (Except Diagnostic α)).perform)
    (hfits : Fits S room findings) (ha : S → sane a) :
    Judged S room [] sane (· = a) (· ∈ findings) t := by
  refine ⟨_, hrun, hfits, List.forall_mem_nil _, ?_, fun _ _ => .nil rfl, ?_, ?_, ?_,
    fun _ _ h => h⟩
  · rintro d ⟨⟩
  · rintro hs _ ⟨⟩
    exact ha hs
  · rintro - _ ⟨⟩
    rfl
  · rintro _ rfl
    exact ⟨rfl, rfl⟩

theorem pure (ha : S → sane a) : Judged S (fun _ => 0) [] sane (· = a) (· ∈ []) (Pure.pure a) :=
  notes (Report.perform_nil (Except.ok a : Except Diagnostic α)).symm .nil ha

theorem annotateSymbols {symbols : List Symbol} :
    Judged S (only (id, false)) [] (fun _ => True) (· = ()) (· ∈ [.symbols id symbols])
      (Checker.annotateSymbols id symbols : Typing Unit) := by
  refine notes ?_ (.single (.symbols id symbols) fun _ => trivial) fun _ => trivial
  exact (congrArg _ (Report.perform_single (.symbols id symbols))).trans (Report.perform_lift _)

theorem conclude {t : DataType} (ht : S → t.Known) :
    Judged S (only (id, true)) [] DataType.Known (· = t) (· ∈ [.type id t])
      (do Checker.annotateType id t; return t) := by
  refine notes ?_ (.single (.type id t) fun hs => (ht hs).ne_unknown) ht
  refine (congrArg (· >>= ExceptT.bindCont fun _ => Pure.pure t)
    ((congrArg _ (Report.perform_single (.type id t))).trans (Report.perform_lift _))).trans ?_
  exact (Report.perform_bind (Report.perform_nil (Except.ok t)).symm).trans (by rfl)

theorem refuse (h : ∀ a, ¬ good a) (hcause : cause.ofDeclaration = false := by rfl) :
    Judged S room cs sane good noted (Typing.refuse span cause : Typing α) := by
  refine ⟨⟨.error (.on span cause), [], [.on span cause]⟩, rfl, .nil,
    List.forall_mem_singleton.mpr hcause, ?_, ?_, ?_, ?_, ?_, ?_⟩
  · rintro d ⟨⟩
    exact ⟨[], rfl, fun _ => rfl⟩
  · rintro a ⟨⟩
  · rintro - a ⟨⟩
  · rintro ⟨⟩
  · exact fun a ha => (h a ha).elim
  · rintro ⟨⟩

/-- Judgements are composed as analyses are. -/
theorem bind {f : α → Typing β} {sane' : β → Prop} {good' : α → β → Prop}
    {noted' : α → Finding → Prop} (ht : Judged S room cs sane good noted t)
    (hf : ∀ a, (S → sane a) → Judged S room' cs' sane' (good' a) (noted' a) (f a)) :
    Judged S (fun key => room key + room' key) (cs ++ cs') sane'
      (fun b => ∃ a, good a ∧ good' a b)
      (fun finding => ∀ a, good a → noted finding ∨ noted' a finding) (t >>= f) := by
  obtain ⟨r, hrun, hr⟩ := ht
  have hbind : (t >>= f).run = r.perform >>= ExceptT.bindCont f := by rw [← hrun]; rfl
  cases hvalue : r.value with
  | error d =>
    -- the analysis gives up, having recorded why
    have hne := hr.errors_ne_nil hvalue
    refine ⟨r.followedBy ⟨.error d, [], []⟩, ?_, hr.fits.append .nil,
      List.forall_mem_append.mpr ⟨hr.causes, List.forall_mem_nil _⟩, ?_, ?_, ?_, ?_, ?_, ?_⟩
    · refine hbind.trans (Report.perform_bind ?_)
      rw [hvalue]
      exact (Report.perform_nil _).symm
    · rintro _ ⟨⟩
      obtain ⟨before, hlast, hbefore⟩ := hr.last d hvalue
      exact ⟨before, by simp [Report.followedBy, hlast],
        fun hnil => hbefore (List.append_eq_nil_iff.mp hnil).1⟩
    · rintro b ⟨⟩
    · rintro - b ⟨⟩
    · exact fun herrors => (hne (List.append_eq_nil_iff.mp herrors).1).elim
    · rintro b ⟨a, ha, -⟩
      exact (hne (hr.complete a ha).1).elim
    · exact fun herrors => (hne (List.append_eq_nil_iff.mp herrors).1).elim
  | ok a =>
    obtain ⟨r', hrun', hr'⟩ := hf a fun hs => hr.sane hs a hvalue
    refine ⟨r.followedBy r', hbind.trans (Report.perform_bind ?_), hr.followedBy hvalue hr'⟩
    rw [hvalue]
    exact hrun'

theorem refused {f : β → Typing α} (h : ∀ a, ¬ good a)
    (hcause : cause.ofDeclaration = false := by rfl) :
    Judged S room cs sane good noted (Typing.refuse span cause >>= f) :=
  refuse h hcause

/-- A check that fails refuses what is not right anyway. -/
theorem guard {b : Bool} {f : Unit → Typing α}
    (h : b = false → Judged S room cs sane good noted (f ()))
    (hcause : cause.ofDeclaration = false := by rfl) :
    Judged S room cs sane (fun a => b = false ∧ good a) noted
      (if b then Typing.refuse span cause >>= f else f ()) := by
  cases b with
  | true => exact refused (by simp) hcause
  | false => exact (h rfl).imp (fun _ => Nat.le_refl _) rfl (by simp) fun _ _ _ h => h

end Judged

end Typing

/-! ## Analyses without a value -/

/-- A report in which nothing is wrong exactly if something holds, and then all findings of `noted`
have been made. -/
structure Report.Reviews (S : Prop) (room : Room) (good : Prop) (noted : Finding → Prop)
    (r : Report Unit) : Prop where
  fits : Fits S room r.findings
  causes : ∀ d ∈ r.errors, d.cause.ofDeclaration = false
  good : r.errors = [] ↔ good
  entered : r.errors = [] → ∀ finding, noted finding → finding ∈ r.findings

namespace Checker

/-- An analysis does what a report says in which nothing is wrong exactly if something holds. If it
does not consist of other analyses, at most one thing is wrong. -/
def Assessed (S : Prop) (room : Room) (cs : List (Checker Unit)) (good : Prop)
    (noted : Finding → Prop) (c : Checker Unit) : Prop :=
  ∃ r : Report Unit, c = r.perform ∧ r.Reviews S room good noted ∧
    (cs = [] → r.errors.length ≤ 1)

theorem Assessed.pure : Assessed S (fun _ => 0) [] True (fun _ => False) (Pure.pure ()) :=
  ⟨_, (Report.perform_nil ()).symm, ⟨.nil, List.forall_mem_nil _, iff_of_true rfl trivial,
    fun _ _ h => h.elim⟩, fun _ => Nat.zero_le 1⟩

variable {cause : Diagnostic.Cause} {span : Span}

theorem Assessed.report (hcause : cause.ofDeclaration = false := by rfl) :
    Assessed S (fun _ => 0) [] False (fun _ => False) (Checker.report span cause) :=
  ⟨_, Report.perform_record _, ⟨.nil, List.forall_mem_singleton.mpr hcause,
    iff_of_false (List.cons_ne_nil _ _) id, fun _ _ h => h.elim⟩, fun _ => Nat.le_refl 1⟩

theorem Assessed.imp {c : Checker Unit} {good good' : Prop} (h : Assessed S room cs good noted c)
    (hroom : ∀ key, room key ≤ room' key) (hcs : cs' = [] → cs = []) (hgood : good ↔ good')
    (hnoted : good → ∀ finding, noted' finding → noted finding) :
    Assessed S room' cs' good' noted' c := by
  obtain ⟨r, hc, hr, hsingle⟩ := h
  refine ⟨r, hc, ⟨hr.fits.mono hroom, hr.causes, hr.good.trans hgood, ?_⟩, fun h => hsingle (hcs h)⟩
  exact fun herrors finding hfinding =>
    hr.entered herrors finding (hnoted (hr.good.mp herrors) finding hfinding)

theorem Assessed.same {t u : DataType} (hcause : cause.ofDeclaration = false := by rfl) :
    Assessed S (fun _ => 0) [] (t = u) (fun _ => False)
      (if t != u then Checker.report span cause else Pure.pure ()) := by
  split
  · exact (Assessed.report hcause).imp (by simp) id (by simp_all) (by simp)
  · exact Assessed.pure.imp (by simp) id (by simp_all) (by simp)

/-- An analysis consists of some analyses, one after the other, and finds nothing wrong exactly if
something holds. -/
def Reviewed (S : Prop) (room : Room) (cs : List (Checker Unit)) (good : Prop)
    (noted : Finding → Prop) (c : Checker Unit) : Prop :=
  ∃ rs, cs = rs.map Report.perform ∧ c = (Report.all rs).perform ∧
    (Report.all rs).Reviews S room good noted

namespace Reviewed

variable {good good' : Prop} {c : Checker Unit}

theorem imp (h : Reviewed S room cs good noted c) (hroom : ∀ key, room key ≤ room' key)
    (hcs : cs = cs') (hgood : good ↔ good')
    (hnoted : good → ∀ finding, noted' finding → noted finding) :
    Reviewed S room' cs' good' noted' c := by
  obtain ⟨rs, hrs, hc, hr⟩ := h
  refine ⟨rs, hcs ▸ hrs, hc, hr.fits.mono hroom, hr.causes, hr.good.trans hgood, ?_⟩
  exact fun herrors finding hfinding =>
    hr.entered herrors finding (hnoted (hr.good.mp herrors) finding hfinding)

theorem whole (h : Assessed S room cs good noted c) : Reviewed S room [c] good noted c := by
  obtain ⟨r, rfl, hr, -⟩ := h
  exact ⟨[r], rfl, by rw [Report.all_single], by rwa [Report.all_single]⟩

theorem joined (h : Reviewed S room cs good noted c) : Reviewed S room [c] good noted c := by
  obtain ⟨rs, -, rfl, hr⟩ := h
  exact ⟨[Report.all rs], rfl, by rw [Report.all_single], by rwa [Report.all_single]⟩

theorem pure : Reviewed S (fun _ => 0) [] True (fun _ => False) (Pure.pure ()) :=
  ⟨[], rfl, (Report.perform_nil ()).symm, .nil, List.forall_mem_nil _, iff_of_true rfl trivial,
    fun _ _ h => h.elim⟩

theorem seq {c' : Checker Unit} (hc : Reviewed S room cs good noted c)
    (hc' : Reviewed S room' cs' good' noted' c') :
    Reviewed S (fun key => room key + room' key) (cs ++ cs') (good ∧ good')
      (fun finding => noted finding ∨ noted' finding) (c >>= fun _ => c') := by
  obtain ⟨rs, rfl, rfl, hr⟩ := hc
  obtain ⟨rs', rfl, rfl, hr'⟩ := hc'
  refine ⟨rs ++ rs', List.map_append.symm, ?_, ?_⟩
  · rw [Report.all_append]
    exact Report.perform_bind rfl
  · rw [Report.all_append]
    refine ⟨hr.fits.append hr'.fits, List.forall_mem_append.mpr ⟨hr.causes, hr'.causes⟩, ?_, ?_⟩
    · simp [Report.followedBy, hr.good, hr'.good]
    · intro herrors finding hfinding
      obtain ⟨h₁, h₂⟩ := List.append_eq_nil_iff.mp herrors
      exact List.mem_append.mpr (hfinding.imp (hr.entered h₁ finding) (hr'.entered h₂ finding))

end Reviewed

end Checker

namespace Typing.Judged

/-- The diagnostic of a typing is recorded and not passed on. -/
theorem review {noted' : α → Finding → Prop} {t : Typing α} {f : Option α → Checker Unit}
    (ht : Judged S room cs sane good noted t)
    (hsome : ∀ a, Checker.Assessed S room' [] (good' a) (noted' a) (f (some a)))
    (hnone : f none = Pure.pure ()) :
    Checker.Assessed S (fun key => room key + room' key) cs (∃ a, good a ∧ good' a)
      (fun finding => ∀ a, good a → noted finding ∨ noted' a finding) (t.type? >>= f) := by
  obtain ⟨r, hrun, hr⟩ := ht
  rw [Report.perform_type? hrun]
  cases hvalue : r.value with
  | error d =>
    have hne := hr.errors_ne_nil hvalue
    refine ⟨_, Report.perform_bind (hnone.trans (Report.perform_nil ()).symm), ⟨hr.fits.append .nil,
      List.forall_mem_append.mpr ⟨hr.causes, List.forall_mem_nil _⟩, ?_, ?_⟩, fun hcs => ?_⟩
    · refine ⟨fun herrors => (hne (List.append_eq_nil_iff.mp herrors).1).elim, ?_⟩
      rintro ⟨a, ha, -⟩
      exact (hne (hr.complete a ha).1).elim
    · exact fun herrors => (hne (List.append_eq_nil_iff.mp herrors).1).elim
    · obtain ⟨before, hlast, hbefore⟩ := hr.last d hvalue
      simp [Report.followedBy, hlast, hbefore hcs]
  | ok a =>
    obtain ⟨r', hrun', hr', hsingle⟩ := hsome a
    refine ⟨_, Report.perform_bind hrun', ⟨hr.fits.append hr'.fits,
      List.forall_mem_append.mpr ⟨hr.causes, hr'.causes⟩, ?_, ?_⟩, fun hcs => ?_⟩
    · constructor
      · intro herrors
        obtain ⟨h₁, h₂⟩ := List.append_eq_nil_iff.mp herrors
        exact ⟨a, hr.sound h₁ a hvalue, hr'.good.mp h₂⟩
      · rintro ⟨a', ha', hgood⟩
        obtain ⟨herrors, hvalue'⟩ := hr.complete a' ha'
        rw [hvalue] at hvalue'
        cases hvalue'
        simp [Report.followedBy, herrors, hr'.good.mpr hgood]
    · intro herrors finding hfinding
      obtain ⟨h₁, h₂⟩ := List.append_eq_nil_iff.mp herrors
      exact List.mem_append.mpr ((hfinding a (hr.sound h₁ a hvalue)).imp
        (hr.entered h₁ finding) (hr'.entered h₂ finding))
    · subst hcs
      rw [Report.followedBy, (hr.gathers a hvalue).errors_eq_nil, List.nil_append]
      exact hsingle rfl

theorem aside {c : Checker Unit} {good : Prop} (h : Checker.Assessed S room cs good noted c) :
    Judged S room [c] (fun _ => True) (fun _ => good) noted (liftM c : Typing Unit) := by
  obtain ⟨r, rfl, hr, -⟩ := h
  refine ⟨_, Report.perform_lift r, hr.fits, hr.causes, ?_, ?_, fun _ _ _ => trivial, ?_, ?_,
    hr.entered⟩
  · rintro d ⟨⟩
  · exact fun _ _ => ⟨[r], rfl, by rw [Report.all_single], by rw [Report.all_single]⟩
  · exact fun herrors _ _ => hr.good.mp herrors
  · exact fun _ hgood => ⟨hr.good.mpr hgood, rfl⟩

end Typing.Judged

end

end Oberlet
