/-
Sessions under a renaming. Truth tables have the same rows whatever the columns are called
(`TruthTable.trueRows_rename`), and searches by chaining come out renamed, so a solver that
is told and asked the same under other names answers the same under these names
(`Solver.serve_rename`), request after request. What can be seen of a whole session is
therefore what is seen of it under the old names, renamed: nothing about a symbol matters
but which symbol it is (`Solver.observe_rename`).
-/
import Mathlib.Logic.Equiv.Basic
import Reasoner.Proofs.Assignment
import Reasoner.Proofs.Chaining.Renaming
import Reasoner.Proofs.KnowledgeBase
import Reasoner.Proofs.Session
import Reasoner.Proofs.TruthTable

namespace Reasoner

variable (ρ : Renaming)

def SolverError.rename : SolverError → SolverError
  | invalidSentence e => invalidSentence { e with text := ρ.wording e.text }
  | invalidQuery e => invalidQuery e
  | malformedClause e => malformedClause (e.rename ρ)
  | contradiction e => contradiction (e.rename ρ)
  | tooManySymbols symbols limit => tooManySymbols symbols limit

/-! ## Knowledge bases -/

namespace KnowledgeBase

def rename (base : KnowledgeBase) : KnowledgeBase where
  sentences := base.sentences.map (·.rename ρ)
  vocabulary := ⟨base.vocabulary.symbols.map ρ.symbol⟩

theorem append_rename (base : KnowledgeBase) (s : Sentence) :
    (base.rename ρ).append (s.rename ρ) = (base.append s).rename ρ := by
  simp only [append, rename, Vocabulary.extend, Sentence.symbols_rename, Symbol.appendNew_rename,
    List.map_append, List.map_cons, List.map_nil]

theorem foldl_append_rename (base : KnowledgeBase) (told : List Sentence) :
    (told.map (·.rename ρ)).foldl append (base.rename ρ) = (told.foldl append base).rename ρ := by
  induction told generalizing base with
  | nil => rfl
  | cons s told ih => rw [List.map_cons, List.foldl_cons, append_rename, ih, List.foldl_cons]

theorem formulas_rename (base : KnowledgeBase) :
    (base.rename ρ).formulas = base.formulas.map (·.rename ρ) := by
  simp only [formulas, rename, List.map_map]
  rfl

end KnowledgeBase

/-! ## Truth tables -/

theorem anyColumn_rename (row : UInt64) (s : Symbol) (i : Nat) (columns : List Symbol) :
    anyColumn row (ρ.symbol s) i (columns.map ρ.symbol) = anyColumn row s i columns := by
  induction columns generalizing i with
  | nil => rfl
  | cons c columns ih => simp only [List.map_cons, anyColumn, ih, ρ.symbol_inj]

def Assignment.rename (a : Assignment) : Assignment :=
  { a with columns := a.columns.map ρ.symbol }

@[simp] theorem Assignment.world_rename (a : Assignment) :
    (a.rename ρ).world ∘ ρ.symbol = a.world :=
  funext fun s => anyColumn_rename ρ a.row s 0 a.columns

namespace TruthTable

def rename (t : TruthTable) : TruthTable :=
  { t with columns := t.columns.map ρ.symbol, formulas := t.formulas.map (·.rename ρ) }

theorem isModel_rename (t : TruthTable) : (t.rename ρ).isModel = t.isModel := by
  funext row
  have hworld := Assignment.world_rename ρ ⟨t.columns, row⟩
  simp only [Assignment.rename] at hworld
  simp only [isModel, rename, List.all_map, Function.comp_def, Formula.holds_rename]
  simp only [← hworld, Function.comp_def]

/-- The rows of the models do not depend on what the columns are called. -/
theorem trueRows_rename (t : TruthTable) : (t.rename ρ).trueRows = t.trueRows := by
  rw [trueRows, collect_eq, isModel_rename, trueRows, collect_eq]
  rfl

theorem ofColumns?_rename (columns : List Symbol) (formulas : List Formula) :
    ofColumns? (columns.map ρ.symbol) (formulas.map (·.rename ρ)) =
      (ofColumns? columns formulas).map (·.rename ρ) := by
  simp only [ofColumns?, List.length_map]
  split <;> rfl

end TruthTable

/-! ## Model checkers -/

namespace ModelChecker

def rename (m : ModelChecker) : ModelChecker :=
  { m with base := m.base.rename ρ }

/-- Takes in sentences that have been read. -/
def takeIn (m : ModelChecker) (told : List Sentence) : Except SolverError Unit × ModelChecker :=
  let base := told.foldl KnowledgeBase.append m.base
  match enumerate m.config base with
  | .error e => (.error e, m)
  | .ok worlds => (.ok (), { m with base, worlds })

theorem enumerate_rename (config : Config) (base : KnowledgeBase) :
    enumerate config (base.rename ρ) = (enumerate config base).mapError (·.rename ρ) := by
  have htable := TruthTable.ofColumns?_rename ρ base.vocabulary.symbols base.formulas
  simp only [enumerate, KnowledgeBase.formulas_rename]
  simp only [KnowledgeBase.rename, List.length_map, htable]
  split
  next => rfl
  next =>
    cases TruthTable.ofColumns? base.vocabulary.symbols base.formulas with
    | none => rfl
    | some t => exact congrArg Except.ok (t.trueRows_rename ρ)

theorem takeIn_rename (m : ModelChecker) (told : List Sentence) :
    (m.rename ρ).takeIn (told.map (·.rename ρ)) =
      ((m.takeIn told).1.mapError (·.rename ρ), (m.takeIn told).2.rename ρ) := by
  simp only [takeIn]
  simp only [rename, KnowledgeBase.foldl_append_rename, enumerate_rename]
  cases enumerate m.config (told.foldl KnowledgeBase.append m.base) <;> rfl

theorem models_rename (m : ModelChecker) : (m.rename ρ).models = m.models.map (·.rename ρ) := by
  simp only [models, rename, List.map_map]
  rfl

/-- As many models satisfy a condition on the symbols as before. -/
theorem countP_models_rename (m : ModelChecker) (q : World → Bool) :
    (m.rename ρ).models.countP (fun a => q (a.world ∘ ρ.symbol)) =
      m.models.countP fun a => q a.world := by
  rw [models_rename, List.countP_map]
  simp only [Function.comp_def]
  refine List.countP_congr fun a _ => ?_
  have hworld := a.world_rename ρ
  simp only [Function.comp_def] at hworld
  rw [hworld]

theorem query_rename (m : ModelChecker) (s : Symbol) :
    (m.rename ρ).query (ρ.symbol s) = m.query s :=
  m.countP_models_rename ρ fun w => w s

theorem ask_rename (m : ModelChecker) (s : Symbol) : (m.rename ρ).ask (ρ.symbol s) = m.ask s := by
  rw [ask, query_rename]
  rfl

theorem queryFormula_rename (m : ModelChecker) (p : Formula) :
    (m.rename ρ).queryFormula (p.rename ρ) = m.queryFormula p := by
  simp only [queryFormula, Formula.holds_rename, m.countP_models_rename ρ fun w => p.holds w]
  rfl

theorem proven_rename (m : ModelChecker) :
    (m.rename ρ).proven = m.proven.map ρ.symbol := by
  have hall : ∀ s, (m.rename ρ).models.all (·.world (ρ.symbol s)) = m.models.all (·.world s) := by
    intro s
    rw [models_rename, List.all_map]
    congr 1
    funext a
    exact congrFun (a.world_rename ρ) s
  have hcolumns : (m.rename ρ).base.vocabulary.symbols = m.base.vocabulary.symbols.map ρ.symbol := rfl
  have hworlds : (m.rename ρ).worlds = m.worlds := rfl
  rw [proven, proven, hworlds, hcolumns, List.filter_map]
  split
  next => rfl
  next => simp only [Function.comp_def, hall]

end ModelChecker

/-! ## Chainers -/

namespace Chainer

noncomputable def rename (c : Chainer) : Chainer where
  strategy := c.strategy
  base := c.base.rename ρ
  clauses := c.clauses.map (·.rename ρ)
  learned := c.learned.rename ρ

def takeIn (c : Chainer) (told : List Sentence) : Except SolverError Unit × Chainer :=
  match clausesOf told with
  | .error e => (.error (.malformedClause e), c)
  | .ok clauses =>
    (.ok (), { c with
      base := told.foldl KnowledgeBase.append c.base, clauses := c.clauses ++ clauses,
      learned := .empty })

theorem clausesOf_rename (told : List Sentence) :
    clausesOf (told.map (·.rename ρ)) =
      ((clausesOf told).map (List.map (·.rename ρ))).mapError (·.rename ρ) := by
  induction told with
  | nil => rfl
  | cons s told ih =>
    rw [List.map_cons, clausesOf, clausesOf, Clause.ofSentence_rename, ih]
    cases Clause.ofSentence s with
    | error e => rfl
    | ok c => cases clausesOf told <;> rfl

theorem takeIn_rename (c : Chainer) (told : List Sentence) :
    (c.rename ρ).takeIn (told.map (·.rename ρ)) =
      ((c.takeIn told).1.mapError (·.rename ρ), (c.takeIn told).2.rename ρ) := by
  simp only [takeIn, clausesOf_rename]
  cases clausesOf told with
  | error e => rfl
  | ok clauses =>
    simp only [rename, Except.map, Except.mapError, KnowledgeBase.foldl_append_rename,
      List.map_append, Knowledge.rename_empty]

theorem search_rename (c : Chainer) (target : Formula) :
    (c.rename ρ).search (target.rename ρ) = (c.search target).rename ρ := by
  obtain ⟨strategy, base, clauses, learned⟩ := c
  cases strategy with
  | forward => exact Chaining.Forward.search_rename ρ base.vocabulary.symbols clauses target
  | backward => exact Chaining.Backward.search_rename ρ base.vocabulary.symbols clauses target

theorem entails_rename (c : Chainer) (target : Formula) :
    (c.rename ρ).entails (target.rename ρ) =
      ((c.entails target).1.mapError (·.rename ρ), (c.entails target).2.rename ρ) := by
  simp only [entails, search_rename, Chaining.Run.result_rename]
  cases (c.search target).result with
  | ok found => rfl
  | error e => simp only [Except.map, Except.mapError, rename, Knowledge.rename_empty]; rfl

theorem query_rename (c : Chainer) (s : Symbol) :
    (c.rename ρ).query (ρ.symbol s) = c.query s := by
  have hvaluation := congrFun (c.learned.valuation_rename ρ) s
  rw [Function.comp_apply] at hvaluation
  simp only [query, rename, hvaluation]

theorem proven_rename (c : Chainer) : (c.rename ρ).proven = c.proven.map ρ.symbol :=
  c.learned.knownAs_rename ρ true

end Chainer

/-! ## Requests -/

/-- What a solver can be told or asked, once the texts have been read. -/
inductive Request where
  | tell (told : List Sentence)
  | reset
  | ask (s : Symbol)
  | query (s : Symbol)
  | queryFormula (p : Formula)
deriving DecidableEq

def Request.rename : Request → Request
  | tell told => tell (told.map (·.rename ρ))
  | reset => reset
  | ask s => ask (ρ.symbol s)
  | query s => query (ρ.symbol s)
  | queryFormula p => queryFormula (p.rename ρ)

/-- Reads the text of an operation. -/
def Operation.read : Operation → Except SolverError Request
  | .tell batch =>
    match Sentence.parseAll (Sentence.split batch) with
    | .ok told => .ok (.tell told)
    | .error e => .error (.invalidSentence e)
  | .reset => .ok .reset
  | .ask s => .ok (.ask s)
  | .query s => .ok (.query s)
  | .queryFormula p => .ok (.queryFormula p)
  | .queryText text =>
    match Formula.parse text with
    | .ok p => .ok (.queryFormula p)
    | .error e => .error (.invalidQuery e)

namespace Solver

def takeIn : Solver → List Sentence → Except SolverError Unit × Solver
  | modelChecker m, told => (m.takeIn told).map id modelChecker
  | chainer c, told => (c.takeIn told).map id chainer

/-- One step of a session whose texts have been read. -/
def serve (s : Solver) : Request → Except SolverError Answer × Solver
  | .tell told => (s.takeIn told).map (Except.map fun _ => .done) id
  | .reset => s.perform .reset
  | .ask x => s.perform (.ask x)
  | .query x => s.perform (.query x)
  | .queryFormula p => s.perform (.queryFormula p)

theorem tell_of_parseAll (s : Solver) {batch : String} {told : List Sentence}
    (h : Sentence.parseAll (Sentence.split batch) = .ok told) : s.tell batch = s.takeIn told := by
  have hbase : ∀ base : KnowledgeBase,
      base.tell batch = (.ok told, told.foldl KnowledgeBase.append base) := by
    intro base
    simp only [KnowledgeBase.tell, h]
  cases s with
  | modelChecker m =>
    simp only [tell, takeIn, ModelChecker.tell, hbase]
    rfl
  | chainer c =>
    simp only [tell, takeIn, Chainer.tell, hbase]
    rfl

/-- An operation does what it reads. -/
theorem perform_of_read {op : Operation} {r : Request} (h : op.read = .ok r) (s : Solver) :
    s.perform op = s.serve r := by
  cases op with
  | tell batch =>
    simp only [Operation.read] at h
    split at h
    next told htold =>
      cases h
      rw [perform, s.tell_of_parseAll htold, serve]
    next => cases h
  | queryText text =>
    simp only [Operation.read] at h
    split at h
    next p hp =>
      cases h
      simp only [perform, queryText, hp, serve]
    next => cases h
  | reset | ask x | query x | queryFormula p =>
    cases h
    rfl

/-! ## Solvers -/

noncomputable def rename : Solver → Solver
  | modelChecker m => modelChecker (m.rename ρ)
  | chainer c => chainer (c.rename ρ)

theorem new_rename (config : Config) (method : Method) :
    (new config method).rename ρ = new config method := by
  cases method with
  | truthTable => rfl
  | forwardChaining | backwardChaining =>
    simp only [new, rename, Chainer.rename, Knowledge.rename_empty]
    rfl

/-- An answer and the solver after it, under the new names. -/
noncomputable def renameResult {α : Type} (result : Except SolverError α × Solver) :
    Except SolverError α × Solver :=
  (result.1.mapError (·.rename ρ), result.2.rename ρ)

theorem renameResult_map {α β : Type} (f : α → β) (result : Except SolverError α × Solver) :
    renameResult ρ (result.map (Except.map f) id) = (renameResult ρ result).map (Except.map f) id := by
  rcases result with ⟨_ | _, s⟩ <;> rfl

theorem takeIn_rename (s : Solver) (told : List Sentence) :
    (s.rename ρ).takeIn (told.map (·.rename ρ)) = renameResult ρ (s.takeIn told) := by
  cases s with
  | modelChecker m =>
    simp only [rename, takeIn, ModelChecker.takeIn_rename]
    rfl
  | chainer c =>
    simp only [rename, takeIn, Chainer.takeIn_rename]
    rfl

theorem ask_rename (s : Solver) (x : Symbol) :
    (s.rename ρ).ask (ρ.symbol x) = renameResult ρ (s.ask x) := by
  cases s with
  | modelChecker m =>
    simp only [rename, ask, ModelChecker.ask_rename]
    rfl
  | chainer c =>
    have hentails : (c.rename ρ).entails (.symbol (ρ.symbol x)) = _ := c.entails_rename ρ (.symbol x)
    simp only [rename, ask, hentails]
    rfl

theorem query_rename (s : Solver) (x : Symbol) : (s.rename ρ).query (ρ.symbol x) = s.query x := by
  cases s with
  | modelChecker m => exact m.query_rename ρ x
  | chainer c => exact c.query_rename ρ x

theorem queryFormula_rename (s : Solver) (p : Formula) :
    (s.rename ρ).queryFormula (p.rename ρ) = renameResult ρ (s.queryFormula p) := by
  cases s with
  | modelChecker m =>
    simp only [rename, queryFormula, ModelChecker.queryFormula_rename]
    rfl
  | chainer c =>
    simp only [rename, queryFormula, Chainer.entails_rename]
    rcases c.entails p with ⟨_ | _, c'⟩ <;> rfl

theorem reset_rename (s : Solver) : (s.rename ρ).reset = s.reset.rename ρ := by
  cases s with
  | modelChecker m => rfl
  | chainer c =>
    simp only [rename, reset, Chainer.reset, Chainer.rename, Knowledge.rename_empty]
    rfl

/-- **One request under other names** gets the same answer under these names, and leaves
the solver it left before, renamed. -/
theorem serve_rename (s : Solver) (r : Request) :
    (s.rename ρ).serve (r.rename ρ) = renameResult ρ (s.serve r) := by
  cases r with
  | tell told => rw [Request.rename, serve, takeIn_rename, ← renameResult_map, serve]
  | reset =>
    rw [Request.rename, serve, perform, reset_rename]
    rfl
  | ask x => rw [Request.rename, serve, perform, ask_rename, ← renameResult_map, serve, perform]
  | query x =>
    rw [Request.rename, serve, perform, query_rename]
    rfl
  | queryFormula p =>
    rw [Request.rename, serve, perform, queryFormula_rename, ← renameResult_map, serve, perform]

/-! ## What can be seen of a session -/

/-- The rows of the models, where the method keeps them. -/
def rows : Solver → List UInt64
  | modelChecker m => m.worlds
  | chainer _ => []

end Solver

/-- What can be seen of a solver after one step. -/
structure Observation where
  answer : Except SolverError Answer
  proven : List Symbol
  rows : List UInt64
deriving DecidableEq

def Observation.rename (o : Observation) : Observation where
  answer := o.answer.mapError (·.rename ρ)
  proven := o.proven.map ρ.symbol
  rows := o.rows

namespace Solver

/-- What can be seen of a session, step after step. -/
def observe {α : Type} (step : Solver → α → Except SolverError Answer × Solver) :
    Solver → List α → List Observation
  | _, [] => []
  | s, x :: xs =>
    ⟨(step s x).1, (step s x).2.proven, (step s x).2.rows⟩ :: observe step (step s x).2 xs

theorem proven_rename (s : Solver) : (s.rename ρ).proven = s.proven.map ρ.symbol := by
  cases s with
  | modelChecker m => exact m.proven_rename ρ
  | chainer c => exact c.proven_rename ρ

theorem rows_rename (s : Solver) : (s.rename ρ).rows = s.rows := by
  cases s <;> rfl

theorem observe_serve_rename (s : Solver) (requests : List Request) :
    observe serve (s.rename ρ) (requests.map (·.rename ρ)) =
      (observe serve s requests).map (·.rename ρ) := by
  induction requests generalizing s with
  | nil => rfl
  | cons r requests ih =>
    have hseen := congrArg₂ (Observation.mk ((s.serve r).1.mapError (·.rename ρ)))
      ((s.serve r).2.proven_rename ρ) ((s.serve r).2.rows_rename ρ)
    rw [List.map_cons, observe, serve_rename]
    exact congrArg₂ List.cons hseen (ih (s.serve r).2)

theorem observe_of_read {session : List Operation} {requests : List Request}
    (h : List.Forall₂ (fun op r => op.read = .ok r) session requests) (s : Solver) :
    observe perform s session = observe serve s requests := by
  induction h generalizing s with
  | nil => rfl
  | cons hread _ ih => rw [observe, perform_of_read hread, ih, observe]

/-- **Nothing about a symbol matters but which symbol it is.** If all that is told and asked
in a session is renamed, all that can be seen of it is what was seen before, renamed: the
same verdicts, counts and rows, the proven symbols in the same order under their new names,
and the same errors, a contradiction about the same symbol under its new name with the same
values. So it is for sentences and formulas of any kind, and for all texts that read as
such sentences and formulas. -/
theorem observe_rename (config : Config) (method : Method) (requests : List Request) :
    observe serve (new config method) (requests.map (·.rename ρ)) =
      (observe serve (new config method) requests).map (·.rename ρ) ∧
    ∀ session session' : List Operation,
      List.Forall₂ (fun op r => op.read = .ok r) session requests →
      List.Forall₂ (fun op r => op.read = .ok r) session' (requests.map (·.rename ρ)) →
      observe perform (new config method) session' =
        (observe perform (new config method) session).map (·.rename ρ) := by
  have hrequests := observe_serve_rename ρ (new config method) requests
  rw [new_rename] at hrequests
  refine ⟨hrequests, fun session session' hread hread' => ?_⟩
  rw [observe_of_read hread', observe_of_read hread, hrequests]

end Solver

/-- `a` and `b` change places. -/
def Renaming.exchange : Renaming where
  symbol := Equiv.swap ⟨"a"⟩ ⟨"b"⟩
  injective := Equiv.injective _
  wording text := .ofList (text.toList.map (Equiv.swap 'a' 'b'))

namespace Solver

/-- With `a` and `b` exchanged, the contradiction is about `a` and its values are the same. -/
theorem observe_rename_exchange :
    let session : List Operation := [.tell "a; a => b; ~b", .ask ⟨"b"⟩]
    let session' : List Operation := [.tell "b; b => a; ~a", .ask ⟨"a"⟩]
    observe perform (new {} .forwardChaining) session' =
        (observe perform (new {} .forwardChaining) session).map (·.rename .exchange) ∧
      observe perform (new {} .forwardChaining) session' =
        [⟨.ok .done, [], []⟩, ⟨.error (.contradiction ⟨⟨"a"⟩, true, false⟩), [], []⟩] := by
  intro session session'
  let requests : List Request := [.tell [⟨"a", .symbol ⟨"a"⟩⟩,
    ⟨"a => b", .binary .implies (.symbol ⟨"a"⟩) (.symbol ⟨"b"⟩)⟩, ⟨"~b", .not (.symbol ⟨"b"⟩)⟩],
    .ask ⟨"b"⟩]
  have hread : List.Forall₂ (fun op r => op.read = .ok r) session requests :=
    .cons (by decide +kernel) (.cons (by decide +kernel) .nil)
  have hread' : List.Forall₂ (fun op r => op.read = .ok r) session'
      (requests.map (·.rename .exchange)) :=
    .cons (by decide +kernel) (.cons (by decide +kernel) .nil)
  have hseen := (observe_rename .exchange {} .forwardChaining requests).2 session session' hread hread'
  refine ⟨hseen, ?_⟩
  rw [hseen]
  decide +kernel

end Solver

end Reasoner
