import Mathlib.Data.List.Forall2
import Mathlib.Data.List.Induction
import TypeCodex.Proofs.Registry.Run
import TypeCodex.Scope

/-!
# Names over whole runs

Scopes are entered and left, names are bound in the innermost scope, and the registry that
the types stand in grows meanwhile. What a name means can be read off the history of the run:
the first binding of the name in the innermost open scope that has one. Nothing bound is
changed, not even by what is registered later, and a scope that is left leaves no trace.

## Main definitions

* `Step`, `Session`, `Session.run` — runs of scopes beside a registry.
* `Event`, `Session.history`, `Event.bindings` — what happened in a run, and what was bound
  in each open scope.
* `Step.Balanced` — steps that leave exactly the scopes that they enter.
* `Session.Agrees` — the scopes hold what was bound in them.

## Main statements

* `Session.Agrees.perform`, `Session.Agrees.run` — a step and a run keep to the history.
* `Session.scopes_perform_leave` — what happens in a scope ends with it.
* `Session.exists_enter` — a scope that can be left was entered at a step of the run.
* `Session.names_run` — names over all runs from a new registry.
-/

namespace TypeCodex

namespace Scopes

/-- What can be done with scopes and with the registry of their types. -/
inductive Step where
  /-- Open a scope inside the innermost one. -/
  | enter
  /-- Close the innermost scope, unless it is the only one. -/
  | leave
  /-- Give a name its meaning in the innermost scope. -/
  | bind (name : String) (id : TypeId)
  /-- Register a type. -/
  | request (q : Request)

/-- Scopes and the registry of their types. -/
structure Session where
  registry : Registry
  scopes : Scopes

/-- A name with the type that it is bound to. -/
structure Binding where
  name : String
  id : TypeId

/-- What happens to scopes. -/
inductive Event where
  | entered
  | left
  | bound (b : Binding)

namespace Session

/-- One scope without names, and a new registry. -/
def start (options : Options) : Session := ⟨Registry.make options, Scopes.empty⟩

/-- Whether a binding is accepted. -/
def accepts (s : Session) (name : String) (id : TypeId) : Bool :=
  (s.scopes.bind? s.registry name id).isSome

/-- The state after a step. A step that is refused changes nothing. -/
def perform (s : Session) : Step → Session
  | .enter => { s with scopes := s.scopes.enter }
  | .leave => { s with scopes := s.scopes.leave?.getD s.scopes }
  | .bind name id => { s with scopes := (s.scopes.bind? s.registry name id).getD s.scopes }
  | .request q => { s with registry := s.registry.perform q }

/-- The state after a sequence of steps. -/
def run (s : Session) (steps : List Step) : Session := steps.foldl perform s

@[simp] theorem run_nil (s : Session) : s.run [] = s := rfl
@[simp] theorem run_cons (s : Session) (x : Step) (steps : List Step) :
    s.run (x :: steps) = (s.perform x).run steps := rfl
@[simp] theorem run_append (s : Session) (steps steps' : List Step) :
    s.run (steps ++ steps') = (s.run steps).run steps' := List.foldl_append

/-- What a step does to the scopes, if it does anything. -/
def event? (s : Session) : Step → Option Event
  | .enter => some .entered
  | .leave => s.scopes.leave?.map fun _ => .left
  | .bind name id => if s.accepts name id then some (.bound ⟨name, id⟩) else none
  | .request _ => none

/-- What a sequence of steps does to the scopes. -/
def history (s : Session) : List Step → List Event
  | [] => []
  | x :: steps => (s.event? x).toList ++ (s.perform x).history steps

end Session

/-! ## The history of a run -/

namespace Event

/-- The bindings in each open scope after an event, given those before it. -/
def record : List (List Binding) → Event → List (List Binding)
  | scopes, entered => [] :: scopes
  | scopes, left => scopes.tail
  | [], bound _ => []
  | bs :: scopes, bound b => (bs ++ [b]) :: scopes

/-- The bindings that were accepted in each open scope, the innermost scope first and the
bindings of a scope in their order. At first one scope is open. -/
def bindings (events : List Event) : List (List Binding) := events.foldl record [[]]

end Event

/-- What a name is bound to first in a scope. -/
def Binding.first? (bs : List Binding) (name : String) : Option TypeId :=
  (bs.find? fun b => b.name = name).map Binding.id

/-- The first binding of a name in the innermost scope that has one says what it means. -/
def Binding.meaning (scopes : List (List Binding)) (name : String) : TypeId :=
  (scopes.findSome? fun bs => first? bs name).getD TypeId.invalid

/-- A scope holds what was bound in it. -/
structure Records (scope : Scope) (bs : List Binding) : Prop where
  get : ∀ name, scope[name]? = Binding.first? bs name
  size : scope.size = bs.length

theorem records_empty : Records ∅ [] where
  get := by simp [Binding.first?]
  size := rfl

namespace Records

variable {scope : Scope} {bs : List Binding}

theorem contains_iff (H : Records scope bs) (name : String) :
    scope.contains name = true ↔ ∃ b ∈ bs, b.name = name := by
  rw [Std.ExtTreeMap.contains_eq_isSome_getElem?, H.get]
  simp [Binding.first?]

/-- A new name is bound behind the names that are there. -/
theorem insert (H : Records scope bs) {name : String} (hnew : scope.contains name = false)
    (id : TypeId) : Records (scope.insert name id) (bs ++ [⟨name, id⟩]) where
  get := by
    intro other
    have hfirst : Binding.first? (bs ++ [⟨name, id⟩]) other
        = (Binding.first? bs other).or (if name = other then some id else none) := by
      rw [Binding.first?, List.find?_append, Option.map_or]
      by_cases h : name = other <;> simp [Binding.first?, h]
    rw [hfirst, ← H.get, Std.ExtTreeMap.getElem?_insert]
    by_cases h : name = other
    · subst h
      have hnone := Std.ExtTreeMap.getElem?_eq_none_of_contains_eq_false hnew
      rw [if_pos Std.ReflCmp.compare_self, if_pos rfl, hnone, Option.none_or]
    · have hne : compare name other ≠ .eq := by simpa using h
      rw [if_neg hne, if_neg h, Option.or_none]
  size := by
    rw [Std.ExtTreeMap.size_insert, hnew, H.size, List.length_append]
    rfl

end Records

/-- Looking a name up goes through the scopes from the inside out. -/
theorem findSome?_eq {chain : List Scope} {scopes : List (List Binding)}
    (h : List.Forall₂ Records chain scopes) (name : String) :
    (chain.findSome? fun scope => scope[name]?)
      = scopes.findSome? fun bs => Binding.first? bs name := by
  induction h with
  | nil => rfl
  | cons h _ ih => rw [List.findSome?_cons, List.findSome?_cons, h.get, ih]

namespace Session

variable {s : Session} {scopes : List (List Binding)}

theorem accepts_eq (s : Session) (name : String) (id : TypeId) :
    s.accepts name id = (s.registry.contains id && !s.scopes.innermost.contains name) := by
  rw [accepts, bind?]
  cases s.registry.contains id <;> cases s.scopes.innermost.contains name <;> rfl

/-- An accepted binding is put into the innermost scope. -/
theorem perform_bind_accepted {name : String} {id : TypeId} (h : s.accepts name id = true) :
    s.perform (.bind name id)
      = ⟨s.registry, ⟨s.scopes.innermost.insert name id, s.scopes.enclosing⟩⟩ := by
  obtain ⟨scopes, hscopes⟩ := Option.isSome_iff_exists.1 h
  rw [perform, hscopes]
  rw [bind?] at hscopes
  split at hscopes
  · cases hscopes
  · cases hscopes
    rfl

/-- A binding that is refused changes nothing. -/
theorem perform_bind_refused {name : String} {id : TypeId} (h : s.accepts name id = false) :
    s.perform (.bind name id) = s := by
  rw [perform, Option.not_isSome_iff_eq_none.1 (Bool.eq_false_iff.1 h)]
  rfl

/-- The scopes hold what was bound in them, and what was bound is registered. -/
structure Agrees (s : Session) (scopes : List (List Binding)) : Prop where
  registry : ∃ ps, s.registry.Holds ps
  records : List.Forall₂ Records s.scopes.chain scopes
  registered : ∀ bs ∈ scopes, ∀ b ∈ bs, s.registry.contains b.id = true

theorem agrees_start (options : Options) : (start options).Agrees [[]] where
  registry := ⟨_, Registry.holds_make options⟩
  records := .cons records_empty .nil
  registered := by simp

namespace Agrees

/-- Every step keeps to the history. -/
theorem perform (H : s.Agrees scopes) (x : Step) :
    (s.perform x).Agrees ((s.event? x).toList.foldl Event.record scopes) := by
  obtain ⟨registry, innermost, enclosing⟩ := s
  cases x with
  | enter =>
    refine ⟨H.registry, .cons records_empty H.records, ?_⟩
    intro bs hbs
    rcases List.mem_cons.1 hbs with rfl | hbs
    · simp
    · exact H.registered bs hbs
  | leave =>
    cases enclosing with
    | nil => exact H
    | cons scope enclosing =>
      cases H.records with
      | cons _ hrest => 
        exact ⟨H.registry, hrest, fun bs hbs => H.registered bs (List.mem_cons_of_mem _ hbs)⟩
  | bind name id =>
    cases h : accepts ⟨registry, innermost, enclosing⟩ name id with
    | false =>
      rw [perform_bind_refused h, event?, h]
      exact H
    | true =>
      rw [perform_bind_accepted h, event?, h]
      rw [accepts_eq, Bool.and_eq_true, Bool.not_eq_true'] at h
      cases hrecords : H.records with
      | @cons _ bs _ rest hfirst hrest =>
        refine ⟨H.registry, .cons (hfirst.insert h.2 id) hrest, ?_⟩
        intro bs' hbs b hb
        rcases List.mem_cons.1 hbs with rfl | hbs
        · rcases List.mem_append.1 hb with hb | hb
          · exact H.registered bs (by simp) b hb
          · rw [List.mem_singleton.1 hb]
            exact h.1
        · exact H.registered bs' (List.mem_cons_of_mem _ hbs) b hb
  | request q =>
    obtain ⟨ps, hps⟩ := H.registry
    obtain ⟨⟨new, hnew⟩, -⟩ := hps.perform q
    exact ⟨⟨_, hnew⟩, H.records,
      fun bs hbs b hb => hps.contains_perform (H.registered bs hbs b hb) q⟩

/-- A run keeps to its history. -/
theorem run (H : s.Agrees scopes) (steps : List Step) :
    (s.run steps).Agrees ((s.history steps).foldl Event.record scopes) := by
  induction steps generalizing s scopes with
  | nil => exact H
  | cons x steps ih =>
    rw [run_cons, history, List.foldl_append]
    exact ih (H.perform x)

/-- A name means what the history says. -/
theorem find_eq (H : s.Agrees scopes) (name : String) :
    s.scopes.find name = Binding.meaning scopes name := by
  rw [Scopes.find, Binding.meaning, findSome?_eq H.records]

/-- A scope has as many names as were bound in it. -/
theorem sizes_eq (H : s.Agrees scopes) :
    s.scopes.chain.map (fun scope => scope.size) = scopes.map List.length := by
  have hmap := List.forall₂_map_left_iff.2 (List.forall₂_map_right_iff.2
    (H.records.imp fun _ _ h => h.size))
  rwa [List.forall₂_eq_eq_eq] at hmap

/-- A binding is accepted if the type is registered and the name is new to the innermost
scope. -/
theorem accepts_eq_true_iff (H : s.Agrees scopes) (name : String) (id : TypeId) :
    s.accepts name id = true ↔
      s.registry.contains id = true ∧ ∀ bs ∈ scopes.head?, ∀ b ∈ bs, b.name ≠ name := by
  obtain ⟨bs, rest, hfirst, -, rfl⟩ := List.forall₂_cons_left_iff.1 H.records
  rw [accepts_eq, Bool.and_eq_true, Bool.not_eq_true', Bool.eq_false_iff, Ne, hfirst.contains_iff]
  simp

/-- What a name means is registered. -/
theorem contains_find (H : s.Agrees scopes) {name : String}
    (h : s.scopes.find name ≠ TypeId.invalid) :
    s.registry.contains (s.scopes.find name) = true := by
  rw [H.find_eq, Binding.meaning] at h ⊢
  cases hid : scopes.findSome? fun bs => Binding.first? bs name with
  | none => exact absurd (by rw [hid]; rfl) h
  | some id =>
    obtain ⟨bs, hbs, hfirst⟩ := List.exists_of_findSome?_eq_some hid
    obtain ⟨b, hb, rfl⟩ := Option.map_eq_some_iff.1 hfirst
    exact H.registered bs hbs b (List.mem_of_find?_eq_some hb)

end Agrees

end Session

/-! ## Scopes that are left -/

/-- Steps that leave exactly the scopes that they enter. -/
inductive Step.Balanced : List Step → Prop where
  | nil : Balanced []
  | bind {steps : List Step} (h : Balanced steps) (name : String) (id : TypeId) :
    Balanced (steps ++ [.bind name id])
  | request {steps : List Step} (h : Balanced steps) (q : Request) :
    Balanced (steps ++ [.request q])
  /-- A scope is entered and left again. -/
  | scope {steps inner : List Step} (h : Balanced steps) (hinner : Balanced inner) :
    Balanced (steps ++ .enter :: inner ++ [.leave])

namespace Session

/-- A binding changes the innermost scope at most. -/
theorem enclosing_perform_bind (s : Session) (name : String) (id : TypeId) :
    (s.perform (.bind name id)).scopes.enclosing = s.scopes.enclosing := by
  cases h : s.accepts name id with
  | false => rw [perform_bind_refused h]
  | true => rw [perform_bind_accepted h]

/-- Leaving gives the scopes back around which a scope stands. -/
theorem perform_leave {s : Session} {scopes : Scopes} (h : s.scopes.enclosing = scopes.chain) :
    (s.perform .leave).scopes = scopes := by
  obtain ⟨registry, innermost, enclosing⟩ := s
  cases h
  rfl

/-- Balanced steps change the innermost scope at most. -/
theorem enclosing_run_balanced (s : Session) {steps : List Step} (h : Step.Balanced steps) :
    (s.run steps).scopes.enclosing = s.scopes.enclosing := by
  induction h generalizing s with
  | nil => rfl
  | bind _ name id ih => rw [run_append, run_cons, run_nil, enclosing_perform_bind, ih]
  | request _ q ih => rw [run_append, run_cons, run_nil]; exact ih s
  | @scope steps inner _ _ ih ihinner =>
    have hleft : (((s.run steps).perform .enter).run inner).scopes.enclosing
        = (s.run steps).scopes.chain := ihinner _
    rw [run_append, run_append, run_cons, run_cons, run_nil, perform_leave hleft, ih]

/-- Leaving a scope gives back what was there before it was entered. -/
theorem scopes_perform_leave (s : Session) (before : List Step) {inner : List Step}
    (h : Step.Balanced inner) :
    ((s.run (before ++ .enter :: inner)).perform .leave).scopes = (s.run before).scopes := by
  rw [run_append, run_cons]
  exact perform_leave (enclosing_run_balanced _ h)

/-- The only scope is not left. -/
theorem perform_leave_of_nil {s : Session} (h : s.scopes.enclosing = []) :
    s.perform .leave = s := by
  obtain ⟨registry, innermost, enclosing⟩ := s
  cases h
  rfl

/-- A scope that can be left was entered at a step of the run, with balanced steps since. -/
theorem exists_enter {s : Session} (hs : s.scopes.enclosing = []) (steps : List Step)
    (h : (s.run steps).scopes.enclosing ≠ []) :
    ∃ before inner, steps = before ++ .enter :: inner ∧ Step.Balanced inner := by
  -- a leave takes the search back to the matching enter, over more than one step
  induction hn : steps.length using Nat.strong_induction_on generalizing steps with
  | h n ih =>
  subst hn
  rcases List.eq_nil_or_concat' steps with rfl | ⟨init, x, rfl⟩
  · exact absurd hs h
  · rw [List.length_append] at ih
    rw [run_append, run_cons, run_nil] at h
    cases x with
    | enter => exact ⟨init, [], rfl, .nil⟩
    | bind name id =>
      rw [enclosing_perform_bind] at h
      obtain ⟨before, inner, rfl, hinner⟩ := ih _ (Nat.lt_succ_self _) init h rfl
      exact ⟨before, inner ++ [.bind name id], by simp, hinner.bind name id⟩
    | request q =>
      obtain ⟨before, inner, rfl, hinner⟩ := ih _ (Nat.lt_succ_self _) init h rfl
      exact ⟨before, inner ++ [.request q], by simp, hinner.request q⟩
    | leave =>
      have hinit : (s.run init).scopes.enclosing ≠ [] := by
        intro hnil
        rw [perform_leave_of_nil hnil] at h
        exact h hnil
      obtain ⟨before, inner, rfl, hinner⟩ := ih _ (Nat.lt_succ_self _) init hinit rfl
      rw [scopes_perform_leave s before hinner] at h
      obtain ⟨before', inner', rfl, hinner'⟩ :=
        ih _ (by simp only [List.length_append, List.length_cons]; omega) before h rfl
      exact ⟨before', inner' ++ .enter :: inner ++ [.leave], by simp, hinner'.scope hinner⟩

/-! ## Names over whole runs -/

/-- In every run from a new registry and one scope without names:

1. a name means what was bound to it first in the innermost open scope that has a binding
   of it, and every open scope has as many names as bindings were accepted in it;
2. a binding is accepted exactly when its type is registered and its name is not bound in
   the innermost scope, and a binding that is refused changes nothing;
3. what a name means is registered;
4. a scope that is entered, whatever happens in it, and left changes no meaning, and
   wherever a scope can be left it was entered like that. -/
theorem names_run (options : Options) (steps : List Step) :
    let s := (start options).run steps
    let bound := Event.bindings ((start options).history steps)
    ((∀ name, s.scopes.find name = Binding.meaning bound name) ∧
      s.scopes.chain.map (fun scope => scope.size) = bound.map List.length) ∧
    (∀ name id,
      (s.accepts name id = true ↔
        s.registry.contains id = true ∧ ∀ bs ∈ bound.head?, ∀ b ∈ bs, b.name ≠ name) ∧
      (s.accepts name id = false → s.perform (.bind name id) = s)) ∧
    (∀ name, s.scopes.find name ≠ TypeId.invalid →
      s.registry.contains (s.scopes.find name) = true) ∧
    (∀ inner, Step.Balanced inner → ∀ name,
      (s.run (.enter :: inner ++ [.leave])).scopes.find name = s.scopes.find name) ∧
    (s.scopes.leave? ≠ none → ∃ before inner,
      steps = before ++ .enter :: inner ∧ Step.Balanced inner ∧
      ∀ name, (s.perform .leave).scopes.find name
        = ((start options).run before).scopes.find name) := by
  intro s bound
  have H : s.Agrees bound := (agrees_start options).run steps
  refine ⟨⟨H.find_eq, H.sizes_eq⟩,
    fun name id => ⟨H.accepts_eq_true_iff name id, perform_bind_refused⟩,
    fun _ => H.contains_find, ?_, ?_⟩
  · intro inner hinner name
    have hleave := scopes_perform_leave s [] hinner
    rw [List.nil_append, run_nil] at hleave
    rw [run_append, run_cons, run_nil, hleave]
  · intro hleave
    have henclosing : s.scopes.enclosing ≠ [] := by
      intro hnil
      rw [leave?, hnil] at hleave
      exact hleave rfl
    obtain ⟨before, inner, rfl, hinner⟩ := exists_enter rfl steps henclosing
    refine ⟨before, inner, rfl, hinner, fun name => ?_⟩
    rw [scopes_perform_leave (start options) before hinner]

/-- A name that is bound again in an inner scope, to a type registered there. -/
theorem names_run_shadowed :
    let vector : View := { tag := .vector, type1 := some ⟨9⟩ }
    let outer : List Step := [.bind "T" ⟨3⟩]
    let inner : List Step := [.bind "T" ⟨17⟩, .request (.intern vector.pack), .bind "T" ⟨17⟩,
      .bind "T" ⟨9⟩, .bind "U" ⟨9⟩]
    let s := (start {}).run (outer ++ .enter :: inner)
    s.accepts "V" ⟨17⟩ = true ∧ s.accepts "T" ⟨3⟩ = false ∧ s.accepts "V" ⟨18⟩ = false ∧
    s.scopes.find "T" = ⟨17⟩ ∧ s.registry.contains (s.scopes.find "T") = true ∧
    ((start {}).run outer).scopes.find "T" = ⟨3⟩ ∧
    ∀ name, (s.perform .leave).scopes.find name = ((start {}).run outer).scopes.find name := by
  intro vector outer inner s
  have hinner : Step.Balanced inner :=
    ((((Step.Balanced.nil.bind _ _).request _).bind _ _).bind _ _).bind _ _
  have hfind : s.scopes.find "T" = ⟨17⟩ := by decide +kernel
  have hregistered : s.registry.contains (s.scopes.find "T") = true := by
    refine (names_run {} (outer ++ .enter :: inner)).2.2.1 "T" ?_
    show s.scopes.find "T" ≠ TypeId.invalid
    rw [hfind]
    decide
  refine ⟨by decide +kernel, by decide +kernel, by decide +kernel, hfind, hregistered,
    by decide +kernel, fun name => ?_⟩
  have hleft := (names_run {} outer).2.2.2.1 inner hinner name
  rwa [run_append, run_cons, run_nil, ← run_append] at hleft

end Session

end Scopes

end TypeCodex
