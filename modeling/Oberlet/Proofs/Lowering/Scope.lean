import Oberlet.Proofs.Lowering.Expr

/-!
# Storage of variables

The stack slots of a function have consecutive places: each takes two registers, one for the slot
and one for the store that fills it.
-/

namespace Oberlet

open Llvm Lowering Lower

/-- A binding is storage for a variable: a global, or a stack slot with a register below `limit`. -/
inductive Stores (limit : Nat) (v : Variable) : Binding → Prop
  | global {name : String} {content : Ty} : v.type.target = .ok content →
      Stores limit v (.storage (.global name content) content)
  | slot {n : Nat} {content : Ty} : n < limit → v.type.target = .ok content →
      Stores limit v (.storage (.reg n (.ptr content)) content)

/-- The binding of a variable that is a global. -/
inductive GlobalAt (moduleName : String) (v : Variable) : Binding → Prop
  | intro {content : Ty} : v.type.target = .ok content →
      GlobalAt moduleName v (.storage (.global (moduleName ++ "." ++ v.name) content) content)

/-- The binding of the variable with number `k` of a function, if the slots begin at register `n`.
-/
inductive SlotAt (n k : Nat) (v : Variable) : Binding → Prop
  | intro {content : Ty} : v.type.target = .ok content →
      SlotAt n k v (.storage (.reg (n + 2 * k) (.ptr content)) content)

variable {b : Binding} {v : Variable} {k limit : Nat} {value : Operand} {t : DataType}

theorem GlobalAt.stores {moduleName : String} (h : GlobalAt moduleName v b) (limit : Nat) :
    Stores limit v b := by
  cases h with
  | intro ht => exact .global ht

theorem SlotAt.stores {n : Nat} (h : SlotAt n k v b) (hk : n + 2 * k < limit) :
    Stores limit v b := by
  cases h with
  | intro ht => exact .slot hk ht

theorem Stores.mono {limit' : Nat} (h : Stores limit v b) (hle : limit ≤ limit') :
    Stores limit' v b := by
  cases h with
  | global ht => exact .global ht
  | slot hn ht => exact .slot (Nat.lt_of_lt_of_le hn hle) ht

theorem Stores.storage (h : Stores limit v b) :
    ∃ address content, b = .storage address content ∧ v.type.target = .ok content ∧
      address.ty = .ptr content := by
  cases h with
  | global ht => exact ⟨_, _, rfl, ht, rfl⟩
  | slot _ ht => exact ⟨_, _, rfl, ht, rfl⟩

theorem lookup_cons_eq_some_iff {name name' : String} {scope : Scope} {b b' : Binding} :
    List.lookup name ((name', b') :: scope) = some b ↔
      name = name' ∧ b' = b ∨ name ≠ name' ∧ List.lookup name scope = some b := by
  by_cases h : name = name'
  · simp [h]
  · simp [List.lookup_cons, beq_false_of_ne h, h]

/-- A scope binds each of a list of variables and nothing else. What it binds them to is said by
`S`, given the number of the variable. -/
inductive Binds (S : Nat → Variable → Binding → Prop) : List Variable → Scope → Prop
  | nil : Binds S [] []
  | snoc {vars : List Variable} {v : Variable} {scope : Scope} {b : Binding} :
      Binds S vars scope → S vars.length v b → Binds S (vars ++ [v]) ((v.name, b) :: scope)

namespace Binds

variable {S : Nat → Variable → Binding → Prop} {vars : List Variable} {scope : Scope}
  {name : String}

theorem of_lookup (h : Binds S vars scope) {b : Binding} (hname : List.lookup name scope = some b) :
    ∃ k v, vars[k]? = some v ∧ v.name = name ∧ S k v b := by
  induction h with
  | nil => cases hname
  | @snoc vars v scope b' _ hb ih =>
    rcases lookup_cons_eq_some_iff.mp hname with ⟨rfl, rfl⟩ | ⟨-, hname⟩
    · exact ⟨vars.length, v, by simp, rfl, hb⟩
    · obtain ⟨k, w, hw, hname, hstores⟩ := ih hname
      refine ⟨k, w, ?_, hname, hstores⟩
      rw [List.getElem?_append_left (List.getElem?_eq_some_iff.mp hw).1, hw]

theorem lookup_eq_none (h : Binds S vars scope) (hname : name ∉ vars.map (·.name)) :
    List.lookup name scope = none := by
  cases hlookup : List.lookup name scope with
  | none => rfl
  | some b =>
    obtain ⟨k, v, hv, rfl, -⟩ := h.of_lookup hlookup
    exact (hname (List.mem_map_of_mem (List.mem_of_getElem? hv))).elim

/-- A scope binds each variable to its own storage. -/
theorem lookup (h : Binds S vars scope) (hnodup : (vars.map (·.name)).Nodup) {k : Nat}
    {v : Variable} (hv : vars[k]? = some v) : ∃ b, List.lookup v.name scope = some b ∧ S k v b := by
  induction h with
  | nil => cases hv
  | @snoc vars w scope b _ hb ih =>
    rw [List.map_append, List.nodup_append] at hnodup
    obtain ⟨hnodup, -, hdisjoint⟩ := hnodup
    rcases Nat.lt_or_ge k vars.length with hk | hk
    · rw [List.getElem?_append_left hk] at hv
      have hne : v.name ≠ w.name :=
        hdisjoint _ (List.mem_map_of_mem (List.mem_of_getElem? hv)) _ (by simp)
      rw [List.lookup_cons, beq_false_of_ne hne]
      exact ih hnodup hv
    · have hlast := (List.getElem?_eq_some_iff.mp hv).1
      rw [List.length_append, List.length_singleton] at hlast
      obtain rfl : k = vars.length := by omega
      obtain rfl : w = v := by simpa using hv
      exact ⟨b, List.lookup_cons_self, hb⟩

end Binds

/-! ## Initial values -/

theorem DataType.eq_zero_of_zeroValue_array {size : Int} {elem : DataType}
    (h : (array size elem).zeroValue = .ok value) :
    ∃ ty, (array size elem).target = .ok ty ∧ value = .zero ty := by
  rw [zeroValue] at h
  cases htarget : (array size elem).target with
  | error fault =>
    rw [htarget] at h
    cases h
  | ok ty =>
    rw [htarget] at h
    cases h
    exact ⟨ty, rfl, rfl⟩

theorem DataType.target_of_zeroValue (h : t.zeroValue = .ok value) : t.target = .ok value.ty := by
  cases t with
  | void | unknown => cases h
  | integer | real | string | boolean =>
    cases h
    rfl
  | array size elem =>
    obtain ⟨ty, hty, rfl⟩ := eq_zero_of_zeroValue_array h
    exact hty

/-- Every variable has an initial value. -/
theorem DataType.Proper.zeroValue (h : t.Proper) : ∃ value, t.zeroValue = .ok value := by
  cases t with
  | void | unknown => exact h.elim
  | integer | real | string | boolean => exact ⟨_, rfl⟩
  | array size elem =>
    obtain ⟨ty, hty⟩ := h.target
    exact ⟨.zero ty, by rw [DataType.zeroValue, hty]; rfl⟩

abbrev ZeroValues (vars : List Variable) (values : List Operand) : Prop :=
  List.Forall₂ (fun v value => v.type.zeroValue = .ok value) vars values

abbrev TargetTypes (vars : List Variable) (tys : List Ty) : Prop :=
  List.Forall₂ (fun v ty => v.type.target = .ok ty) vars tys

theorem exists_getElem?_of_forall₂ {α β : Type} {R : α → β → Prop} {as : List α} {bs : List β}
    (h : List.Forall₂ R as bs) {a : α} (ha : as[k]? = some a) : ∃ b, bs[k]? = some b ∧ R a b := by
  induction h generalizing k with
  | nil => cases ha
  | @cons _ b _ _ hfirst _ ih =>
    cases k with
    | zero =>
      cases ha
      exact ⟨b, rfl, hfirst⟩
    | succ k => exact ih ha

theorem variablesOf_append (decls decls' : List VarDecl) :
    variablesOf (decls ++ decls') = variablesOf decls ++ variablesOf decls' :=
  List.flatMap_append

/-- Code that makes a stack slot for each value and puts the value there. -/
def slotCode : Nat → List Operand → List Instr
  | _, [] => []
  | n, value :: rest =>
    .alloca value.ty :: .store value (.reg n (.ptr value.ty)) :: slotCode (n + 2) rest

@[simp] theorem length_slotCode (n : Nat) (values : List Operand) :
    (slotCode n values).length = 2 * values.length := by
  induction values generalizing n with
  | nil => rfl
  | cons value rest ih =>
    rw [slotCode, List.length_cons, List.length_cons, ih, List.length_cons]
    omega

theorem slotCode_append (n : Nat) (front back : List Operand) :
    slotCode n (front ++ back) = slotCode n front ++ slotCode (n + 2 * front.length) back := by
  induction front generalizing n with
  | nil => rfl
  | cons value rest ih =>
    rw [List.cons_append, slotCode, slotCode, ih, List.length_cons, Nat.mul_add]
    simp [Nat.add_assoc, Nat.add_comm 2]

/-- Code that makes stack slots and fills them. -/
def Setup (code : List Instr) : Prop :=
  ∀ instr ∈ code, instr.isSlot ∨ ∃ v address, instr = .store v address

theorem setup_slotCode (n : Nat) (values : List Operand) : Setup (slotCode n values) := by
  induction values generalizing n with
  | nil => simp [Setup, slotCode]
  | cons value rest ih =>
    intro instr h
    rcases List.mem_cons.mp h with rfl | h
    · exact .inl rfl
    · rcases List.mem_cons.mp h with rfl | h
      · exact .inr ⟨_, _, rfl⟩
      · exact ih (n + 2) instr h

theorem Lowering.Emitted.done_nil {s s' : State} {code : List Instr} (h : Emitted s code s')
    (hdone : s.done = []) : s'.done = [] := by
  have hdone' : s'.done = (s.place code).done := congrArg (·.done) h.place
  rw [hdone']
  obtain ⟨_, _, _, _, _, _, done, _, _⟩ := s
  subst hdone
  rfl

/-! ## Parameters -/

section

variable {s : State} {scope : Scope} {vars : List Variable} {n : Nat} {f : Function} {i index : Nat}
  {annotations : Annotations} {decl : VarDecl}

theorem Lower.bind_slot (hv : v.type.target = .ok value.ty) (hbinds : Binds (SlotAt n) vars scope)
    (hnext : s.nextReg = n + 2 * vars.length) {m : Lower Operand}
    (hm : Emits m s [.alloca value.ty] (.reg s.nextReg (.ptr value.ty))
      (s.place [.alloca value.ty])) :
    Generates (do
        let slot ← m
        Lower.store value slot
        return (v.name, .storage slot value.ty) :: scope) s fun _ code scope' =>
      code = slotCode s.nextReg [value] ∧ Binds (SlotAt n) (vars ++ [v]) scope' := by
  have hslot : Generates m s fun _ code slot =>
      code = [.alloca value.ty] ∧ slot = .reg s.nextReg (.ptr value.ty) :=
    ⟨_, _, _, hm, fun _ _ => ⟨rfl, rfl⟩⟩
  refine hslot.bind ?_
  rintro - - s₁ hs₁ ⟨rfl, rfl⟩
  refine .map ⟨_, _, _, .store rfl s₁, fun _ _ _ => ⟨rfl, .snoc hbinds ?_⟩⟩
  rw [hnext]
  exact .intro hv

theorem Lowering.Emitted.nextReg_slot {s' : State} (hs : Emitted s (slotCode s.nextReg [value]) s')
    (hnext : s.nextReg = n + 2 * vars.length) : s'.nextReg = n + 2 * (vars ++ [v]).length := by
  rw [hs.nextReg, hnext, length_slotCode, List.length_append, List.length_singleton,
    List.length_singleton]
  omega

def paramValues : Nat → List Ty → List Operand
  | _, [] => []
  | i, ty :: rest => .param i ty :: paramValues (i + 1) rest

@[simp] theorem length_paramValues (i : Nat) (tys : List Ty) :
    (paramValues i tys).length = tys.length := by
  induction tys generalizing i with
  | nil => rfl
  | cons ty rest ih => rw [paramValues, List.length_cons, ih, List.length_cons]

theorem lowerParam_code {param : Param} (hf : s.functions[index]? = some f)
    (hparam : f.params[i]? = some param) (hv : v.type.target = .ok param.ty) (hdone : s.done = [])
    (hbinds : Binds (SlotAt n) vars scope) (hnext : s.nextReg = n + 2 * vars.length) :
    Generates (lowerParam index scope i v) s fun _ code scope' =>
      code = slotCode s.nextReg [.param i param.ty] ∧ Binds (SlotAt n) (vars ++ [v]) scope' := by
  rw [lowerParam]
  refine .get_bind ?_
  rw [hf]
  dsimp only
  rw [hparam]
  exact Lower.bind_slot hv hbinds hnext (.alloca param.ty hdone)

/-- Parameters get slots that are filled with their values. -/
theorem lowerParams_code {params : List Variable} {tys : List Ty} (htypes : TargetTypes params tys)
    (hf : s.functions[index]? = some f) (hparams : (f.params.map (·.ty)).drop i = tys)
    (hdone : s.done = []) (hbinds : Binds (SlotAt n) vars scope)
    (hnext : s.nextReg = n + 2 * vars.length) :
    Generates ((params.zipIdx i).foldlM (fun scope (v, i) => lowerParam index scope i v) scope) s
      fun _ code scope' => code = slotCode s.nextReg (paramValues i tys) ∧
        Binds (SlotAt n) (vars ++ params) scope' := by
  induction htypes generalizing i s scope vars with
  | nil => exact .pure fun _ _ => ⟨rfl, by simpa using hbinds⟩
  | @cons v ty params tys hv _ ih =>
    have hget : (f.params.map (·.ty))[i]? = some ty := by
      have := congrArg List.head? hparams
      rwa [List.head?_drop] at this
    rw [List.getElem?_map] at hget
    obtain ⟨param, hparam, rfl⟩ := Option.map_eq_some_iff.mp hget
    have hrest : (f.params.map (·.ty)).drop (i + 1) = tys := by
      rw [← List.tail_drop, hparams]
      rfl
    rw [List.zipIdx_cons, List.foldlM_cons]
    refine (lowerParam_code hf hparam hv hdone hbinds hnext).bind ?_
    rintro - scope₁ s₁ hs₁ ⟨rfl, hbinds₁⟩
    refine (ih (hs₁.getElem?_functions hf) hrest (hs₁.done_nil hdone) hbinds₁
      (hs₁.nextReg_slot hnext)).imp ?_
    rintro _ - scope' ⟨rfl, hbinds'⟩ -
    refine ⟨?_, by simpa using hbinds'⟩
    rw [hs₁.nextReg]
    rfl

/-! ## Local variables -/

theorem lowerLocals_code (hproper : decl.type.Proper)
    (hann : annotations.symbolsOf Symbol.var? decl.node.id = .ok decl.variables)
    (hbinds : Binds (SlotAt n) vars scope) (hnext : s.nextReg = n + 2 * vars.length) :
    Generates (lowerLocals annotations scope decl) s fun _ code scope' => ∃ values,
      ZeroValues decl.variables values ∧ code = slotCode s.nextReg values ∧
        Binds (SlotAt n) (vars ++ decl.variables) scope' := by
  rw [lowerLocals]
  refine .lift_bind hann ?_
  have htype : ∀ v ∈ decl.variables, v.type = decl.type := by simp [VarDecl.variables]
  generalize decl.variables = vs at htype
  obtain ⟨value, hvalue⟩ := hproper.zeroValue
  have hty := DataType.target_of_zeroValue hvalue
  induction vs generalizing s scope vars with
  | nil => exact .pure fun _ _ => ⟨[], .nil, rfl, by simpa using hbinds⟩
  | cons v rest ih =>
    rw [List.forall_mem_cons] at htype
    rw [List.foldlM_cons]
    have hstep : Generates (do
        let content ← v.type.target
        let slot ← Lower.entryAlloca content
        Lower.store (← v.type.zeroValue) slot
        return (v.name, .storage slot content) :: scope) s fun _ code scope' =>
          code = slotCode s.nextReg [value] ∧ Binds (SlotAt n) (vars ++ [v]) scope' := by
      rw [htype.1]
      refine .lift_bind hty ?_
      rw [hvalue]
      exact Lower.bind_slot (htype.1 ▸ hty) hbinds hnext (.entryAlloca value.ty s)
    refine hstep.bind ?_
    rintro - scope₁ s₁ hs₁ ⟨rfl, hbinds₁⟩
    refine (ih hbinds₁ (hs₁.nextReg_slot hnext) htype.2).imp ?_
    rintro tables - scope' ⟨values, hvalues, rfl, hbinds'⟩ -
    refine ⟨value :: values, .cons (htype.1 ▸ hvalue) hvalues, ?_, by simpa using hbinds'⟩
    rw [hs₁.nextReg]
    rfl

theorem lowerAllLocals_code (decls : List VarDecl) (hproper : ∀ decl ∈ decls, decl.type.Proper)
    (hann : ∀ decl ∈ decls, annotations.symbolsOf Symbol.var? decl.node.id = .ok decl.variables)
    (hbinds : Binds (SlotAt n) vars scope) (hnext : s.nextReg = n + 2 * vars.length) :
    Generates (decls.foldlM (lowerLocals annotations) scope) s fun _ code scope' => ∃ values,
      ZeroValues (variablesOf decls) values ∧ code = slotCode s.nextReg values ∧
        Binds (SlotAt n) (vars ++ variablesOf decls) scope' := by
  induction decls generalizing s scope vars with
  | nil => exact .pure fun _ _ => ⟨[], .nil, rfl, by simpa [variablesOf] using hbinds⟩
  | cons decl rest ih =>
    rw [List.forall_mem_cons] at hproper hann
    rw [List.foldlM_cons]
    refine (lowerLocals_code hproper.1 hann.1 hbinds hnext).bind ?_
    rintro - scope₁ s₁ hs₁ ⟨front, hfront, rfl, hbinds₁⟩
    have hnext₁ : s₁.nextReg = n + 2 * (vars ++ decl.variables).length := by
      rw [hs₁.nextReg, hnext, length_slotCode, ← hfront.length_eq, List.length_append]
      omega
    refine (ih hproper.2 hann.2 hbinds₁ hnext₁).imp ?_
    rintro tables - scope' ⟨back, hback, rfl, hbinds'⟩ -
    refine ⟨front ++ back, List.rel_append hfront hback, ?_, by simpa [variablesOf] using hbinds'⟩
    rw [slotCode_append, hs₁.nextReg, length_slotCode]

/-! ## Globals -/

/-- The globals of variables with given initial values. -/
def globalsFor (moduleName : String) (vars : List Variable) (values : List Operand) : List Global :=
  (vars.zip values).map fun (v, value) => .var (moduleName ++ "." ++ v.name) value

theorem declareGlobals_run (moduleName : String) (hproper : decl.type.Proper)
    (hann : annotations.symbolsOf Symbol.var? decl.node.id = .ok decl.variables)
    (hbinds : Binds (fun _ => GlobalAt moduleName) vars scope) :
    ∃ scope' values, declareGlobals annotations moduleName scope decl s =
        .ok (scope',
          { s with globals := s.globals ++ globalsFor moduleName decl.variables values }) ∧
      ZeroValues decl.variables values ∧
      Binds (fun _ => GlobalAt moduleName) (vars ++ decl.variables) scope' := by
  have htype : ∀ v ∈ decl.variables, v.type = decl.type := by simp [VarDecl.variables]
  rw [declareGlobals, run_bind (Emits.lift hann s).runs]
  generalize decl.variables = vs at htype
  obtain ⟨value, hvalue⟩ := hproper.zeroValue
  have hty := DataType.target_of_zeroValue hvalue
  induction vs generalizing s scope vars with
  | nil => exact ⟨scope, [], by simp [globalsFor]; rfl, .nil, by simpa using hbinds⟩
  | cons v rest ih =>
    rw [List.forall_mem_cons] at htype
    have hbinds₁ := hbinds.snoc (v := v) (.intro (htype.1 ▸ hty))
    obtain ⟨scope', values, hrun, hvalues, hbinds'⟩ := ih (s := { s with
      globals := s.globals ++ [Global.var (moduleName ++ "." ++ v.name) value] }) hbinds₁ htype.2
    refine ⟨scope', value :: values, ?_, .cons (htype.1 ▸ hvalue) hvalues, by simpa using hbinds'⟩
    rw [List.foldlM_cons, htype.1, hty, hvalue]
    refine hrun.trans ?_
    simp [globalsFor]

/-- The variables of a module become globals. -/
theorem declareAllGlobals_run (moduleName : String) (decls : List VarDecl)
    (hproper : ∀ decl ∈ decls, decl.type.Proper)
    (hann : ∀ decl ∈ decls, annotations.symbolsOf Symbol.var? decl.node.id = .ok decl.variables)
    (hbinds : Binds (fun _ => GlobalAt moduleName) vars scope) :
    ∃ scope' values, decls.foldlM (declareGlobals annotations moduleName) scope s =
        .ok (scope', { s with
          globals := s.globals ++ globalsFor moduleName (variablesOf decls) values }) ∧
      ZeroValues (variablesOf decls) values ∧
      Binds (fun _ => GlobalAt moduleName) (vars ++ variablesOf decls) scope' := by
  induction decls generalizing s scope vars with
  | nil =>
    refine ⟨scope, [], ?_, .nil, by simpa [variablesOf] using hbinds⟩
    simp [globalsFor, variablesOf]
    rfl
  | cons decl rest ih =>
    rw [List.forall_mem_cons] at hproper hann
    obtain ⟨scope₁, front, hrun₁, hfront, hbinds₁⟩ :=
      declareGlobals_run (s := s) moduleName hproper.1 hann.1 hbinds
    obtain ⟨scope', back, hrun, hback, hbinds'⟩ := ih (s := { s with
      globals := s.globals ++ globalsFor moduleName decl.variables front }) hproper.2 hann.2 hbinds₁
    refine ⟨scope', front ++ back, ?_, List.rel_append hfront hback,
      by simpa [variablesOf] using hbinds'⟩
    rw [List.foldlM_cons, run_bind hrun₁]
    refine hrun.trans ?_
    have hglobals : globalsFor moduleName (variablesOf (decl :: rest)) (front ++ back) =
        globalsFor moduleName decl.variables front ++
          globalsFor moduleName (variablesOf rest) back := by
      rw [globalsFor, globalsFor, globalsFor, ← List.map_append, ← List.zip_append hfront.length_eq]
      rfl
    rw [hglobals, List.append_assoc]

/-- Globals are those of variables, in this order, with their initial values. -/
abbrev GlobalsOf (moduleName : String) (vars : List Variable)
    (globals : List (String × Operand)) : Prop :=
  List.Forall₂ (fun v g => g.1 = moduleName ++ "." ++ v.name ∧ v.type.zeroValue = .ok g.2)
    vars globals

theorem ZeroValues.globalsOf {values : List Operand} (h : ZeroValues vars values)
    (moduleName : String) :
    GlobalsOf moduleName vars (varsOf (globalsFor moduleName vars values)) := by
  induction h with
  | nil => exact .nil
  | cons hvalue _ ih => exact .cons ⟨rfl, hvalue⟩ ih

theorem GlobalsOf.mem {moduleName : String} {globals : List (String × Operand)}
    (h : GlobalsOf moduleName vars globals) (hv : v ∈ vars) :
    ∃ init, (moduleName ++ "." ++ v.name, init) ∈ globals ∧ v.type.zeroValue = .ok init := by
  induction h with
  | nil => cases hv
  | @cons w g _ _ hw _ ih =>
    rcases List.mem_cons.mp hv with rfl | hv
    · exact ⟨g.2, by simp [← hw.1], hw.2⟩
    · obtain ⟨init, hinit, hzero⟩ := ih hv
      exact ⟨init, List.mem_cons_of_mem _ hinit, hzero⟩

end

end Oberlet
