/-
  Macros/Codegen.lean --- what `#[task(...)]` makes of a function (`kojin-macros`:
  `codegen.rs`; `kojin-core`: `task.rs`, `registry.rs`).

      async fn send(ctx: &TaskContext, to: String) -> TaskResult<()> { block }

  becomes a struct `Send` with a field for each parameter but the first, and a task whose
  `run` binds the fields to the names of the parameters and goes on with the block.

  The translation is right if the generated task does what the function does.  A block is
  what it does with the names in scope, so the question is what the names are bound to:
  those of the parameters are bound to the arguments, and `ctx` to the context, whatever
  the first parameter is called.

  The task does not get its arguments from a caller but from a message, and is found by
  the name in it.  The serializers that are derived are the parameter `Serde`, and what the
  `clone` of a value returns is the parameter `clone`.
-/
import Kojin.Core.Backoff
import Kojin.Macros.TaskAttr

set_option autoImplicit false

namespace Kojin.Macros

open Kojin.Foundation Kojin.Core

/-! ## The function -/

/-- `syn::Type`, as far as it is looked at; of the arguments of a path, the types. -/
inductive Ty where
  | reference (of : Ty)
  | path (front : List String) (last : String) (args : Option (List (Option Ty)))
  | other (text : String)

/-- `syn::Pat`. -/
inductive Pat where
  | ident (name : String)
  | other (text : String)
  deriving DecidableEq

/-- `syn::FnArg`. -/
inductive FnArg where
  | receiver
  | typed (pat : Pat) (ty : Ty)

/-- `syn::ItemFn`.  The block is kept as what it does. -/
structure ItemFn (B : Type) where
  vis : String
  ident : String
  isAsync : Bool
  inputs : List FnArg
  output : Option Ty
  block : B

/-! ## The generator -/

/-- The items that are generated. -/
structure GeneratedTask (B : Type) where
  vis : String
  structName : String
  fields : List (String × Ty)
  name : String
  queue : String
  maxRetries : UInt32
  output : Ty
  body : B

/-- What the generator uses of Unicode and of the Rust lexer: how a character is written
in capitals, and which texts are identifiers. -/
structure Lexer where
  toUppercase : Char → List Char
  isIdent : List Char → Bool

/-- A word with its first letter in capitals. -/
def capitalize (lex : Lexer) : List Char → List Char
  | [] => []
  | c :: cs => lex.toUppercase c ++ cs

/-- `to_pascal_case`. -/
def toPascalCase (lex : Lexer) (s : String) : List Char :=
  (s.toList.splitOn '_').flatMap (capitalize lex)

/-- `extract_result_inner`. -/
def extractResultInner : Ty → Ty
  | .path front last args =>
      if last = "TaskResult" ∨ last = "Result" then
        match args with
        | some (some inner :: _) => inner
        | _ => .path front last args
      else .path front last args
  | ty => ty

/-- The first parameter. -/
def checkFirst : List FnArg → Except String (List FnArg)
  | [] => .error "#[task] function must have at least one parameter: ctx: &TaskContext"
  | .typed _ (.reference _) :: params => .ok params
  | .typed _ _ :: _ =>
      .error "first parameter must be a reference to TaskContext (e.g., ctx: &TaskContext)"
  | .receiver :: _ => .error "#[task] function cannot have self parameter"

/-- The parameters after the first become fields. -/
def collectFields : List FnArg → Except String (List (String × Ty))
  | [] => .ok []
  | .typed (.ident name) ty :: params => do
      let fields ← collectFields params
      pure ((name, ty) :: fields)
  | .typed (.other _) _ :: _ => .error "expected named parameter"
  | .receiver :: _ => .error "unexpected self parameter"

/-- `generate_task`.  `format_ident!` panics on a text that is no identifier. -/
def generateTask {B : Type} (lex : Lexer) (attr : TaskAttr) (func : ItemFn B) :
    Except String (GeneratedTask B) := do
  let structName := toPascalCase lex func.ident
  if lex.isIdent structName = false then throw "custom attribute panicked"
  if func.isAsync = false then throw "#[task] function must be async"
  let params ← checkFirst func.inputs
  let fields ← collectFields params
  pure
    { vis := func.vis
      structName := String.ofList structName
      fields := fields
      name := func.ident
      queue := attr.queueConst
      maxRetries := attr.maxRetriesConst
      output := (func.output.map extractResultInner).getD (.other "()")
      body := func.block }

/-- The parameters of an accepted function. -/
def ItemFn.Takes {B : Type} (func : ItemFn B) (first : Pat) (fields : List (String × Ty)) : Prop :=
  ∃ ty, func.inputs =
    .typed first (.reference ty) :: fields.map fun field => .typed (.ident field.1) field.2

theorem collectFields_ok_iff {params : List FnArg} {fields : List (String × Ty)} :
    collectFields params = .ok fields ↔
      params = fields.map fun field => .typed (.ident field.1) field.2 := by
  induction params generalizing fields with
  | nil =>
      cases fields with
      | nil => simp [collectFields]
      | cons field fields => simp [collectFields]
  | cons param params ih =>
      cases param with
      | receiver =>
          cases fields with
          | nil => simp [collectFields]
          | cons field fields => simp [collectFields]
      | typed pat ty =>
          cases pat with
          | other text =>
              cases fields with
              | nil => simp [collectFields]
              | cons field fields => simp [collectFields]
          | ident name =>
              rw [collectFields, bind_eq_ok_iff]
              constructor
              · rintro ⟨rest, hrest, hret⟩
                cases hret
                simp [ih.mp hrest]
              · intro h
                cases fields with
                | nil => cases h
                | cons field fields =>
                    obtain ⟨hfirst, hrest⟩ := List.cons.inj h
                    cases hfirst
                    exact ⟨fields, ih.mpr hrest, rfl⟩

theorem checkFirst_ok_iff {inputs params : List FnArg} : checkFirst inputs = .ok params ↔
    ∃ first ty, inputs = .typed first (.reference ty) :: params := by
  constructor
  · intro h
    unfold checkFirst at h
    split at h
    · cases h
    · cases h
      exact ⟨_, _, rfl⟩
    · cases h
    · cases h
  · rintro ⟨first, ty, rfl⟩
    rfl

/-- Which functions are accepted, and what is generated. -/
theorem generateTask_ok_iff {B : Type} {lex : Lexer} {attr : TaskAttr} {func : ItemFn B}
    {task : GeneratedTask B} : generateTask lex attr func = .ok task ↔
      lex.isIdent (toPascalCase lex func.ident) = true ∧ func.isAsync = true ∧
        (∃ first, func.Takes first task.fields) ∧
        task = ⟨func.vis, String.ofList (toPascalCase lex func.ident), task.fields, func.ident,
          attr.queueConst, attr.maxRetriesConst,
          (func.output.map extractResultInner).getD (.other "()"), func.block⟩ := by
  unfold generateTask
  by_cases hident : lex.isIdent (toPascalCase lex func.ident) = true
  · by_cases hasync : func.isAsync = true
    · simp only [hident, hasync, Bool.true_eq_false, if_false, true_and]
      constructor
      · intro h
        obtain ⟨params, hfirst, hrest⟩ := bind_eq_ok_iff.mp h
        obtain ⟨fields, hfields, hret⟩ := bind_eq_ok_iff.mp hrest
        obtain ⟨first, ty, hinputs⟩ := checkFirst_ok_iff.mp hfirst
        cases hret
        refine ⟨⟨first, ty, ?_⟩, rfl⟩
        rw [hinputs, collectFields_ok_iff.mp hfields]
      · rintro ⟨⟨first, ty, hinputs⟩, htask⟩
        have hfirst := checkFirst_ok_iff.mpr ⟨first, ty, hinputs⟩
        have hfields : collectFields _ = .ok task.fields := collectFields_ok_iff.mpr rfl
        rw [htask]
        exact bind_eq_ok_iff.mpr ⟨_, hfirst, bind_eq_ok_iff.mpr ⟨_, hfields, rfl⟩⟩
    · refine iff_of_false (fun h => ?_) fun h => hasync h.2.1
      simp only [Bool.not_eq_true] at hasync
      simp only [hident, hasync, Bool.true_eq_false, if_false, if_true] at h
      cases h
  · refine iff_of_false (fun h => ?_) fun h => hident h.1
    simp only [Bool.not_eq_true] at hident
    simp only [hident, if_true] at h
    cases h

/-- The block is handed through. -/
theorem generateTask_withBlock {B : Type} {lex : Lexer} {attr : TaskAttr} {func : ItemFn B}
    {task : GeneratedTask B} (h : generateTask lex attr func = .ok task) (block : B) :
    generateTask lex attr { func with block := block } = .ok { task with body := block } := by
  obtain ⟨hident, hasync, htakes, htask⟩ := generateTask_ok_iff.mp h
  exact generateTask_ok_iff.mpr
    ⟨hident, hasync, htakes, congrArg (fun task => { task with body := block }) htask⟩

/-! ## What the function does -/

/-- What a name is bound to. -/
inductive Bound (C V : Type) where
  | context (ctx : C)
  | owned (v : V)
  | borrowed (v : V)
  deriving DecidableEq

/-- The names in scope, the innermost first. -/
abbrev Scope (C V : Type) : Type := List (String × Bound C V)

/-- A block is what it does with the names in scope. -/
abbrev Block (M : Type → Type) (C V : Type) : Type :=
  (String → Option (Bound C V)) → M (TaskResult V)

section Scopes

variable {M : Type → Type} {C V : Type}

/-- The block looks at no other names. -/
def Block.Reads (block : Block M C V) (names : List String) : Prop :=
  ∀ env env' : String → Option (Bound C V), (∀ x ∈ names, env x = env' x) → block env = block env'

/-- A pattern of a parameter binds its name.  One that is no name binds nothing: it can
only be `_`, for a reference to a context has no other. -/
def Pat.bind (pat : Pat) (b : Bound C V) : Scope C V :=
  match pat with
  | .ident name => [(name, b)]
  | .other _ => []

/-- The scope of the block, when the function is called. -/
def callScope (first : Pat) (names : List String) (ctx : C) (args : List V) : Scope C V :=
  first.bind (.context ctx) ++ names.zip (args.map .owned)

/-- Call the function: the parameters are bound to the arguments. -/
def ItemFn.call (func : ItemFn (Block M C V)) (first : Pat) (names : List String)
    (ctx : C) (args : List V) : M (TaskResult V) :=
  func.block fun name => (callScope first names ctx args).lookup name

/-! ## What the task does -/

/-- `.clone()` of what a name is bound to. -/
def Bound.clone (clone : V → V) : Bound C V → Bound C V
  | .context ctx => .context ctx
  | .owned v => .owned (clone v)
  | .borrowed v => .owned (clone v)

/-- `let name = name.clone();` -/
def letClone (clone : V → V) (scope : Scope C V) (name : String) : Scope C V :=
  match scope.lookup name with
  | some b => (name, b.clone clone) :: scope
  | none => scope

/-- The scope of the block in `run`: `ctx` is bound, `let Self { ref .. } = *self` binds
the fields, and each is bound again to its clone. -/
def runScope (clone : V → V) (names : List String) (self : List V) (ctx : C) : Scope C V :=
  names.foldl (letClone clone) (names.zip (self.map .borrowed) ++ [("ctx", .context ctx)])

/-- `Task::run`. -/
def GeneratedTask.run (task : GeneratedTask (Block M C V)) (clone : V → V) (self : List V)
    (ctx : C) : M (TaskResult V) :=
  task.body fun name => (runScope clone (task.fields.map Prod.fst) self ctx).lookup name

/-! ## The two scopes -/

theorem lookup_letClone (clone : V → V) (scope : Scope C V) (name x : String) :
    (letClone clone scope name).lookup x =
      if x = name then (scope.lookup name).map (Bound.clone clone) else scope.lookup x := by
  unfold letClone
  cases hname : scope.lookup name with
  | none =>
      by_cases hx : x = name
      · rw [hx, if_pos rfl, hname, Option.map_none]
      · rw [if_neg hx]
  | some b =>
      by_cases hx : x = name
      · simp [hx]
      · have hbeq : (x == name) = false := by simpa using hx
        simp [List.lookup_cons, hx, hbeq]

/-- Names that are all bound again to their clones. -/
theorem lookup_letClones (clone : V → V) {names : List String} (hnodup : names.Nodup)
    (scope : Scope C V) (x : String) : (names.foldl (letClone clone) scope).lookup x =
      if x ∈ names then (scope.lookup x).map (Bound.clone clone) else scope.lookup x := by
  induction names generalizing scope with
  | nil => simp
  | cons name names ih =>
      obtain ⟨hname, hnodup⟩ := List.nodup_cons.mp hnodup
      rw [List.foldl_cons, ih hnodup, lookup_letClone]
      by_cases hx : x = name
      · subst hx
        simp [hname]
      · simp [hx]

/-- Values that are bound one way or the other. -/
theorem lookup_zip_map {names : List String} {vs : List V} (f g : V → Bound C V)
    (h : Bound C V → Bound C V) (hfg : ∀ v, h (f v) = g v) (x : String) :
    ((names.zip (vs.map f)).lookup x).map h = (names.zip (vs.map g)).lookup x := by
  induction names generalizing vs with
  | nil => simp
  | cons name names ih =>
      cases vs with
      | nil => simp
      | cons v vs =>
          cases hx : x == name with
          | true => simp [List.lookup_cons, hx, hfg]
          | false => simpa [List.lookup_cons, hx] using ih

theorem lookup_zip_isSome {names : List String} {bs : List (Bound C V)}
    (hlen : bs.length = names.length) {x : String} (hx : x ∈ names) :
    ((names.zip bs).lookup x).isSome := by
  induction names generalizing bs with
  | nil => simp at hx
  | cons name names ih =>
      cases bs with
      | nil => simp at hlen
      | cons b bs =>
          cases hname : x == name with
          | true => simp [List.lookup_cons, hname]
          | false =>
              have hrest : x ∈ names := by
                rcases List.mem_cons.mp hx with rfl | hrest
                · simp at hname
                · exact hrest
              simpa [List.lookup_cons, hname] using ih (by simpa using hlen) hrest

theorem lookup_zip_eq_none {names : List String} {bs : List (Bound C V)} {x : String}
    (hx : x ∉ names) : (names.zip bs).lookup x = none := by
  rw [List.lookup_eq_none_iff]
  rintro ⟨name, b⟩ hmem
  have hname : name ∈ names := (List.of_mem_zip hmem).1
  simpa using fun h : x = name => hx (h ▸ hname)

/-- A name in `run`: a field, or else `ctx`. -/
theorem lookup_runScope {clone : V → V} (hclone : ∀ v, clone v = v) {names : List String}
    (hnodup : names.Nodup) {self : List V} (hself : self.length = names.length) (ctx : C)
    (x : String) : (runScope clone names self ctx).lookup x =
      if x ∈ names then (names.zip (self.map .owned)).lookup x
      else if x = "ctx" then some (.context ctx) else none := by
  rw [runScope, lookup_letClones clone hnodup, List.lookup_append]
  by_cases hx : x ∈ names
  · have hsome : ((names.zip (self.map (Bound.borrowed (C := C)))).lookup x).isSome :=
      lookup_zip_isSome (by simpa using hself) hx
    obtain ⟨b, hb⟩ := Option.isSome_iff_exists.mp hsome
    rw [if_pos hx, if_pos hx, hb, Option.some_or, ← hb]
    exact lookup_zip_map _ _ _ (fun v => congrArg Bound.owned (hclone v)) x
  · rw [if_neg hx, if_neg hx, lookup_zip_eq_none hx, Option.none_or]
    by_cases hctx : x = "ctx"
    · simp [hctx]
    · have hbeq : (x == "ctx") = false := by simpa using hctx
      simp [List.lookup_cons, hctx, hbeq]

/-- A name in the function: the first parameter, or else one of the others. -/
theorem lookup_callScope (first : Pat) (names : List String) (ctx : C) (args : List V)
    (x : String) : (callScope first names ctx args).lookup x =
      if first = .ident x then some (.context ctx) else (names.zip (args.map .owned)).lookup x := by
  rw [callScope, List.lookup_append]
  cases first with
  | other text => simp [Pat.bind]
  | ident name =>
      by_cases hx : x = name
      · simp [Pat.bind, hx]
      · have hbeq : (x == name) = false := by simpa using hx
        simp [Pat.bind, List.lookup_cons, hbeq, Ne.symm hx]

/-- Where the scopes agree: on the fields, and on a name that is `ctx` if and only if
it is that of the first parameter. -/
theorem lookup_run_eq_call_iff {clone : V → V} (hclone : ∀ v, clone v = v) {first : Pat}
    {names : List String} (hnodup : names.Nodup) (hfirst : ∀ x ∈ names, first ≠ .ident x)
    {self : List V} (hself : self.length = names.length) (ctx : C) (x : String) :
    (runScope clone names self ctx).lookup x = (callScope first names ctx self).lookup x ↔
      x ∈ names ∨ (x = "ctx" ↔ first = .ident x) := by
  rw [lookup_runScope hclone hnodup hself, lookup_callScope]
  by_cases hx : x ∈ names
  · simp [hx, hfirst x hx]
  · rw [lookup_zip_eq_none hx, if_neg hx, or_iff_right hx]
    by_cases hctx : x = "ctx"
    · rw [if_pos hctx]
      by_cases hname : first = .ident x <;> simp [hctx, hname]
    · rw [if_neg hctx]
      by_cases hname : first = .ident x <;> simp [hctx, hname]

/-! ## The task does what the function does -/

/-- What is taken is determined by the function. -/
theorem ItemFn.Takes.fields_eq {B : Type} {func : ItemFn B} {first first' : Pat}
    {fields fields' : List (String × Ty)} (h : func.Takes first fields)
    (h' : func.Takes first' fields') : fields' = fields := by
  obtain ⟨ty, hinputs⟩ := h
  obtain ⟨ty', hinputs'⟩ := h'
  obtain ⟨-, hfields⟩ := List.cons.inj (hinputs'.symm.trans hinputs)
  refine List.map_injective_iff.mpr (fun field field' heq => ?_) hfields
  obtain ⟨hpat, hty⟩ := FnArg.typed.inj heq
  exact Prod.ext (Pat.ident.inj hpat) hty

theorem ItemFn.Takes.withBlock {B : Type} {func : ItemFn B} {first : Pat}
    {fields : List (String × Ty)} (h : func.Takes first fields) (block : B) :
    ({ func with block := block } : ItemFn B).Takes first fields := h

/-- What is generated of an accepted function. -/
theorem run_of_generated {lex : Lexer} {attr : TaskAttr} {func : ItemFn (Block M C V)}
    {task : GeneratedTask (Block M C V)} (hgen : generateTask lex attr func = .ok task)
    {first : Pat} {fields : List (String × Ty)} (htakes : func.Takes first fields)
    (clone : V → V) (self : List V) (ctx : C) : task.run clone self ctx =
      func.block fun name => (runScope clone (fields.map Prod.fst) self ctx).lookup name := by
  obtain ⟨-, -, ⟨first', htakes'⟩, htask⟩ := generateTask_ok_iff.mp hgen
  have hbody : task.body = func.block := congrArg GeneratedTask.body htask
  rw [GeneratedTask.run, hbody, htakes.fields_eq htakes']

/-- Which translations keep the meaning.  The tasks of all functions of some parameters,
whose blocks look at some names, do what the functions do: if and only if each name is a
field, or is `ctx` just if the first parameter has that name. -/
theorem run_eq_call_iff {lex : Lexer} {attr : TaskAttr} {func : ItemFn (Block M C V)}
    {task : GeneratedTask (Block M C V)} (hgen : generateTask lex attr func = .ok task)
    {first : Pat} {fields : List (String × Ty)} (htakes : func.Takes first fields)
    (hnodup : (fields.map Prod.fst).Nodup)
    (hfirst : ∀ x ∈ fields.map Prod.fst, first ≠ .ident x)
    {clone : V → V} (hclone : ∀ v, clone v = v) {self : List V}
    (hself : self.length = fields.length) (ctx : C) {a b : M (TaskResult V)} (hab : a ≠ b)
    (names : List String) :
    (∀ (block : Block M C V) (task' : GeneratedTask (Block M C V)), block.Reads names →
      generateTask lex attr { func with block := block } = .ok task' →
      task'.run clone self ctx =
        ({ func with block := block } : ItemFn (Block M C V)).call first (fields.map Prod.fst)
          ctx self) ↔
      ∀ x ∈ names, x ∈ fields.map Prod.fst ∨ (x = "ctx" ↔ first = .ident x) := by
  have hlen : self.length = (fields.map Prod.fst).length := by rw [List.length_map, hself]
  have hagree := lookup_run_eq_call_iff hclone hnodup hfirst hlen ctx
  constructor
  · intro hkept x hx
    rw [← hagree x]
    by_contra hdiffer
    classical
    -- a block that tells the two scopes apart
    let called := (callScope first (fields.map Prod.fst) ctx self).lookup x
    let block : Block M C V := fun env => if env x = called then a else b
    have hreads : block.Reads names := fun env env' heq => by
      simp only [block, heq x hx]
    have hgen' := generateTask_withBlock hgen block
    have hsame := hkept block _ hreads hgen'
    rw [run_of_generated hgen' (htakes.withBlock block)] at hsame
    have hrun : block (fun name =>
        (runScope clone (fields.map Prod.fst) self ctx).lookup name) = b := if_neg hdiffer
    have hcall : block (fun name =>
        (callScope first (fields.map Prod.fst) ctx self).lookup name) = a := if_pos rfl
    exact hab (hcall.symm.trans (hsame.symm.trans hrun))
  · intro hnames block task' hreads hgen'
    rw [run_of_generated hgen' (htakes.withBlock block)]
    exact hreads _ _ fun x hx => (hagree x).mpr (hnames x hx)

/-- The meaning of one function is kept. -/
theorem run_eq_call {lex : Lexer} {attr : TaskAttr} {func : ItemFn (Block M C V)}
    {task : GeneratedTask (Block M C V)} (hgen : generateTask lex attr func = .ok task)
    {first : Pat} {fields : List (String × Ty)} (htakes : func.Takes first fields)
    (hnodup : (fields.map Prod.fst).Nodup)
    (hfirst : ∀ x ∈ fields.map Prod.fst, first ≠ .ident x)
    {clone : V → V} (hclone : ∀ v, clone v = v) {self : List V}
    (hself : self.length = fields.length) {names : List String}
    (hreads : func.block.Reads names)
    (hnames : ∀ x ∈ names, x ∈ fields.map Prod.fst ∨ (x = "ctx" ↔ first = .ident x)) (ctx : C) :
    task.run clone self ctx = func.call first (fields.map Prod.fst) ctx self := by
  have hlen : self.length = (fields.map Prod.fst).length := by rw [List.length_map, hself]
  rw [run_of_generated hgen htakes]
  exact hreads _ _ fun x hx =>
    (lookup_run_eq_call_iff hclone hnodup hfirst hlen ctx x).mpr (hnames x hx)

end Scopes

/-! ## Messages and handlers -/

/-- The serializers of a type: `serde_json::to_value` and `serde_json::from_value`. -/
structure Serde (T : Type) where
  toValue : T → Except String Json
  fromValue : Json → Except String T

/-- What was written is read back. -/
def Serde.RoundTrips {T : Type} (serde : Serde T) : Prop :=
  ∀ v payload, serde.toValue v = .ok payload → serde.fromValue payload = .ok v

/-- The result of a handler: `Ok(serde_json::to_value(result)?)`. -/
def Serde.serialized {T : Type} (serde : Serde T) : TaskResult T → TaskResult Json
  | .error e => .error e
  | .ok result =>
      match serde.toValue result with
      | .error e => .error (.serialization e)
      | .ok value => .ok value

/-- A generated type with the serializers that are derived for it. -/
structure TaskType (M : Type → Type) (C V : Type) where
  task : GeneratedTask (Block M C V)
  serde : Serde (List V)
  outputSerde : Serde V

/-- `TaskHandler`. -/
abbrev TaskHandler (M : Type → Type) (C : Type) : Type := Json → C → M (TaskResult Json)

/-- `TaskRegistry`. -/
abbrev TaskRegistry (M : Type → Type) (C : Type) : Type := List (String × TaskHandler M C)

section Registry

variable {M : Type → Type} [Monad M] {C V : Type}

/-- What the generated code declares.  It has no backoff of its own. -/
def TaskType.decl (T : TaskType M C V) : Task :=
  ⟨T.task.name, T.task.queue, T.task.maxRetries, BackoffStrategy.default⟩

/-- `Task::signature`.  A task that cannot be written is a panic. -/
def TaskType.signature (T : TaskType M C V) (self : List V) : Except String Signature := do
  let payload ← T.serde.toValue self
  pure (T.decl.signature payload)

/-- The handler of a type. -/
def TaskType.handler (clone : V → V) (T : TaskType M C V) : TaskHandler M C := fun payload ctx =>
  match T.serde.fromValue payload with
  | .error e => pure (.error (.serialization e))
  | .ok self => T.outputSerde.serialized <$> T.task.run clone self ctx

namespace TaskRegistry

/-- `HashMap::insert`. -/
def insert (name : String) (handler : TaskHandler M C) : TaskRegistry M C → TaskRegistry M C
  | [] => [(name, handler)]
  | entry :: rest =>
      if entry.1 = name then (name, handler) :: rest else entry :: insert name handler rest

/-- `TaskRegistry::register`. -/
def register (clone : V → V) (registry : TaskRegistry M C) (T : TaskType M C V) :
    TaskRegistry M C := registry.insert T.task.name (T.handler clone)

/-- `TaskRegistry::get`. -/
def get (registry : TaskRegistry M C) (name : String) : Option (TaskHandler M C) :=
  registry.lookup name

/-- `TaskRegistry::dispatch`. -/
def dispatch (registry : TaskRegistry M C) (name : String) (payload : Json) (ctx : C) :
    M (TaskResult Json) :=
  match registry.get name with
  | none => pure (.error (.taskNotFound name))
  | some handler => handler payload ctx

variable {registry : TaskRegistry M C}

omit [Monad M] in
theorem get_insert (name : String) (handler : TaskHandler M C) (x : String) :
    (registry.insert name handler).get x = if x = name then some handler else registry.get x := by
  induction registry with
  | nil =>
      by_cases hx : x = name
      · simp [insert, get, hx]
      · have hbeq : (x == name) = false := by simpa using hx
        simp [insert, get, List.lookup_cons, hx, hbeq]
  | cons entry rest ih =>
      obtain ⟨name', handler'⟩ := entry
      by_cases hname : name' = name
      · subst hname
        by_cases hx : x = name'
        · simp [insert, get, hx]
        · have hbeq : (x == name') = false := by simpa using hx
          simp [insert, get, List.lookup_cons, hx, hbeq]
      · simp only [insert, if_neg hname, get, List.lookup_cons] at ih ⊢
        cases hx : x == name' with
        | true =>
            have heq : x = name' := by simpa using hx
            simp [heq, hname]
        | false => exact ih

omit [Monad M] in
/-- The names of a registry are those that its types declare. -/
theorem names_insert (name : String) (handler : TaskHandler M C) :
    (registry.insert name handler).map Prod.fst =
      if name ∈ registry.map Prod.fst then registry.map Prod.fst
      else registry.map Prod.fst ++ [name] := by
  induction registry with
  | nil => simp [insert]
  | cons entry rest ih =>
      by_cases hname : entry.1 = name
      · simp [insert, hname]
      · have hne : ¬ name = entry.1 := fun h => hname h.symm
        simp only [insert, if_neg hname, List.map_cons, ih, List.mem_cons, hne, false_or]
        split <;> simp

theorem names_register (clone : V → V) (types : List (TaskType M C V)) :
    (types.foldl (register clone) registry).map Prod.fst =
      (types.map TaskType.decl).foldl Core.register (registry.map Prod.fst) := by
  induction types generalizing registry with
  | nil => rfl
  | cons T types ih =>
      simp only [List.foldl_cons, List.map_cons, ih]
      rw [register, names_insert]
      rfl

omit [Monad M] in
theorem mem_names_of_get {name : String} {handler : TaskHandler M C}
    (h : registry.get name = some handler) : name ∈ registry.map Prod.fst := by
  by_contra hname
  have hnone : registry.get name = none := by
    refine List.lookup_eq_none_iff.mpr fun entry hentry => ?_
    have hne : name ≠ entry.1 := fun heq => hname (heq ▸ List.mem_map_of_mem hentry)
    simpa using hne
  rw [hnone] at h
  cases h

/-- Of the types of one name, the last that was registered has the handler. -/
theorem get_register (clone : V → V) {later : List (TaskType M C V)} {name : String}
    (h : ∀ T ∈ later, T.task.name ≠ name) :
    (later.foldl (register clone) registry).get name = registry.get name := by
  induction later generalizing registry with
  | nil => rfl
  | cons T later ih =>
      rw [List.foldl_cons, ih fun T' hT' => h T' (List.mem_cons_of_mem _ hT'), register, get_insert,
        if_neg (h T List.mem_cons_self).symm]

end TaskRegistry

/-- A message of a function runs the function.  It was made of the arguments, carries
the attribute's queue and retries, and is dispatched by its name. -/
theorem message_runs_function {lex : Lexer} {attr : TaskAttr} {func : ItemFn (Block M C V)}
    {T : TaskType M C V} (hgen : generateTask lex attr func = .ok T.task)
    {first : Pat} {fields : List (String × Ty)} (htakes : func.Takes first fields)
    (hnodup : (fields.map Prod.fst).Nodup)
    (hfirst : ∀ x ∈ fields.map Prod.fst, first ≠ .ident x)
    {names : List String} (hreads : func.block.Reads names)
    (hnames : ∀ x ∈ names, x ∈ fields.map Prod.fst ∨ (x = "ctx" ↔ first = .ident x))
    {clone : V → V} (hclone : ∀ v, clone v = v) (hround : T.serde.RoundTrips)
    {args : List V} (hargs : args.length = fields.length) {sig : Signature}
    (hsig : T.signature args = .ok sig) (earlier : List (TaskType M C V))
    {later : List (TaskType M C V)} (hlater : ∀ T' ∈ later, T'.task.name ≠ func.ident)
    (now : DateTime) (id : TaskId) (ctx : C) :
    let m := sig.intoMessage now id
    let types := earlier ++ T :: later
    m.queue = attr.queueConst ∧ m.maxRetries = attr.maxRetriesConst ∧
      m.taskName ∈ (types.map TaskType.decl).foldl Core.register [] ∧
      (types.foldl (TaskRegistry.register clone) []).dispatch m.taskName m.payload ctx =
        T.outputSerde.serialized <$> func.call first (fields.map Prod.fst) ctx args := by
  intro m types
  obtain ⟨-, -, -, htask⟩ := generateTask_ok_iff.mp hgen
  have hname : T.task.name = func.ident := congrArg GeneratedTask.name htask
  have hqueue : T.task.queue = attr.queueConst := congrArg GeneratedTask.queue htask
  have hretries : T.task.maxRetries = attr.maxRetriesConst :=
    congrArg GeneratedTask.maxRetries htask
  obtain ⟨payload, hpayload, hret⟩ := bind_eq_ok_iff.mp hsig
  cases hret
  have hget : (types.foldl (TaskRegistry.register clone) []).get m.taskName =
      some (T.handler clone) := by
    have hm : m.taskName = T.task.name := rfl
    rw [hm, List.foldl_append, List.foldl_cons,
      TaskRegistry.get_register clone (hname ▸ hlater), TaskRegistry.register,
      TaskRegistry.get_insert, if_pos rfl]
  refine ⟨hqueue, hretries, ?_, ?_⟩
  · have hmem := TaskRegistry.mem_names_of_get hget
    rw [TaskRegistry.names_register] at hmem
    exact hmem
  · rw [TaskRegistry.dispatch, hget]
    have hm : m.payload = payload := rfl
    simp only [TaskType.handler, hm, hround _ _ hpayload]
    rw [run_eq_call hgen htakes hnodup hfirst hclone hargs hreads hnames]

/-! The function of the tests, `add(_ctx: &TaskContext, a: i32, b: i32)`. -/

/-- ASCII. -/
def asciiLexer : Lexer :=
  ⟨fun c => [c.toUpper],
    fun cs => cs.head?.any Char.isAlpha && cs.all fun c => c.isAlphanum || c = '_'⟩

/-- `i32`. -/
def int32 : Ty := .path [] "i32" none

/-- `Ok(a + b)`. -/
def addBlock : Block Id Unit Int := fun env =>
  match env "a", env "b" with
  | some (.owned a), some (.owned b) => .ok (a + b)
  | _, _ => .error (.other "does not compile")

/-- The parameters that are fields. -/
def addFields : List (String × Ty) := [("a", int32), ("b", int32)]

def addFunction : ItemFn (Block Id Unit Int) where
  vis := ""
  ident := "add"
  isAsync := true
  inputs := [.typed (.ident "_ctx") (.reference (.path [] "TaskContext" none)),
    .typed (.ident "a") int32, .typed (.ident "b") int32]
  output := some (.path [] "TaskResult" (some [some int32]))
  block := addBlock

/-- `struct Add` and its implementation. -/
def addTask : GeneratedTask (Block Id Unit Int) :=
  ⟨"", "Add", addFields, "add", "default", 3, int32, addBlock⟩

theorem addTask_generated : generateTask asciiLexer TaskAttr.default addFunction = .ok addTask := by
  rfl

theorem addBlock_reads : addBlock.Reads ["a", "b"] := by
  intro env env' h
  simp only [addBlock, h "a" (by simp), h "b" (by simp)]

theorem addFunction_takes : addFunction.Takes (.ident "_ctx") addFields := ⟨_, rfl⟩

theorem addFields_bound : ∀ x ∈ ["a", "b"],
    x ∈ addFields.map Prod.fst ∨ (x = "ctx" ↔ Pat.ident "_ctx" = .ident x) := by
  decide

theorem cloned_int : ∀ n : Int, id n = n := fun _ => rfl

theorem twoArgs : ([3, 4] : List Int).length = addFields.length := rfl

theorem run_eq_call_iff_add : ¬ ∀ (block : Block Id Unit Int)
    (task' : GeneratedTask (Block Id Unit Int)), block.Reads ["_ctx"] →
    generateTask asciiLexer TaskAttr.default { addFunction with block := block } = .ok task' →
    task'.run id [3, 4] () = ({ addFunction with block := block } :
      ItemFn (Block Id Unit Int)).call (.ident "_ctx") ["a", "b"] () [3, 4] := by
  have hiff := run_eq_call_iff addTask_generated addFunction_takes (by decide) (by decide)
    cloned_int twoArgs () (a := .ok 0) (b := .ok 1) (fun h => by cases h) ["_ctx"]
  exact fun h => absurd (hiff.mp h) (by decide)

/-- A pair of integers as an object. -/
def addSerde : Serde (List Int) where
  toValue
    | [a, b] => .ok (.obj [("a", .num (.int a)), ("b", .num (.int b))])
    | _ => .error "no such struct"
  fromValue
    | .obj [("a", .num (.int a)), ("b", .num (.int b))] => .ok [a, b]
    | _ => .error "invalid type"

def intSerde : Serde Int where
  toValue n := .ok (.num (.int n))
  fromValue
    | .num (.int n) => .ok n
    | _ => .error "invalid type"

def addType : TaskType Id Unit Int := ⟨addTask, addSerde, intSerde⟩

theorem addSerde_roundTrips : addSerde.RoundTrips := by
  intro v payload h
  match v, h with
  | [a, b], h =>
      cases h
      rfl

/-- The type under another name. -/
def namedType (name : String) : TaskType Id Unit Int :=
  { addType with task := { addTask with name := name } }

theorem noOther : ∀ T ∈ [namedType "mul"], T.task.name ≠ addFunction.ident := by
  simp [namedType, addFunction]

theorem message_runs_function_add : ∃ sig, addType.signature [3, 4] = .ok sig ∧
    (([namedType "sub", addType, namedType "mul"].foldl (TaskRegistry.register id) []).dispatch
      (sig.intoMessage ⟨0⟩ ⟨1⟩).taskName (sig.intoMessage ⟨0⟩ ⟨1⟩).payload ()) =
        .ok (.num (.int 7)) := by
  refine ⟨_, rfl, ?_⟩
  have hruns := message_runs_function (T := addType) addTask_generated addFunction_takes (by decide)
    (by decide) addBlock_reads addFields_bound cloned_int addSerde_roundTrips twoArgs rfl
    [namedType "sub"] noOther ⟨0⟩ ⟨1⟩ ()
  exact hruns.2.2.2

end Registry

end Kojin.Macros
