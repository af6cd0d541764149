import Mathlib

/-! Depth-first traversal of a graph given by what each node does when it is entered.
A node is marked before it is entered and a marked node is not entered again; a failure
stops the whole traversal. The nodes are names: two of them may stand for one object. -/
namespace Bes.Lib.Traversal
open List

inductive Visit (ν : Type) where
  | refused
  | endless
  | calls (next : List ν) (finishes : Bool)
  deriving DecidableEq, Repr

structure Marks (ν : Type) where
  marked : List ν
  entered : List ν
  deriving DecidableEq, Repr

def Marks.start : Marks ν where
  marked := []
  entered := []

variable {ν κ : Type}

def Marks.mark (marks : Marks ν) (node : ν) : Marks ν where
  marked := node :: marks.marked
  entered := marks.entered

def Marks.enter (marks : Marks ν) (node : ν) : Marks ν where
  marked := node :: marks.marked
  entered := marks.entered ++ [node]

def andThen (rest : Marks ν → Option (Bool × Marks ν)) :
    Option (Bool × Marks ν) → Option (Bool × Marks ν)
  | some (true, marks) => rest marks
  | result => result

theorem andThen_eq_some {after : Marks ν} (heq : andThen rest before = some (result, after)) :
    ∃ between, before = some (true, between) ∧ rest between = some (result, after)
      ∨ before = some (false, between) ∧ result = false ∧ after = between := by
  match before with
  | none => contradiction
  | some (true, between) => exact ⟨between, Or.inl ⟨rfl, heq⟩⟩
  | some (false, between) =>
    cases heq
    exact ⟨after, Or.inr ⟨rfl, rfl, rfl⟩⟩

def Opens (graph : ν → Visit ν) (node : ν) : Prop :=
  ∃ next finishes, graph node = .calls next finishes

def Leads (graph : ν → Visit ν) (first second : ν) : Prop :=
  ∃ next finishes, graph first = .calls next finishes ∧ second ∈ next

/-- What can be come to from a node without passing through the nodes of a stack. -/
abbrev Avoiding (graph : ν → Visit ν) (stack : List ν) (node other : ν) : Prop :=
  Relation.ReflTransGen (fun first second => Leads graph first second ∧ second ∉ stack) node other

/-- Nothing fails that can be come to from a node while those of the stack are being visited. -/
def Completes (graph : ν → Visit ν) (stack : List ν) (node : ν) : Prop :=
  ∀ other, Avoiding graph stack node other → ∃ next, graph other = .calls next true

/-- What is met from a node before the first failure, while the nodes of the stack are being visited:
a node is passed on to if those called before it complete. -/
inductive Met (graph : ν → Visit ν) : List ν → ν → ν → Prop where
  | here (stack : List ν) (node : ν) : Met graph stack node node
  | child {stack before after : List ν} {node next other : ν} {finishes : Bool}
      (hcalls : graph node = .calls (before ++ next :: after) finishes)
      (hnext : next ∉ node :: stack)
      (hbefore : ∀ earlier ∈ before, earlier ∉ node :: stack →
        Completes graph (node :: stack) earlier)
      (hmet : Met graph (node :: stack) next other) : Met graph stack node other

section

variable {graph : ν → Visit ν} {marks : Marks ν} {stack : List ν} {key : ν → κ} {keys : List κ}

theorem Leads.mem {next : List ν} (hleads : Leads graph node other)
    (hcalls : graph node = .calls next finishes) : other ∈ next := by
  obtain ⟨next', finishes', hcalls', hother⟩ := hleads
  rw [hcalls] at hcalls'
  cases hcalls'
  exact hother

theorem Avoiding.of_cons (hpath : Avoiding graph (node :: stack) first second) :
    Avoiding graph stack first second :=
  Relation.ReflTransGen.mono (fun _ _ hstep => ⟨hstep.1, fun hmem => hstep.2 (mem_cons_of_mem _ hmem)⟩)
    _ _ hpath

theorem Met.avoiding (hmet : Met graph stack node other) : Avoiding graph stack node other := by
  induction hmet with
  | here stack node => exact .refl
  | child hcalls hnext _ _ ih =>
    exact ih.of_cons.head ⟨⟨_, _, hcalls, by simp⟩, fun hmem => hnext (mem_cons_of_mem _ hmem)⟩

/-- Between two calls of the node on top of the stack: what is marked has been entered, and what has been
entered is on the stack or has led without a failure to nodes that are all marked. -/
structure Between (graph : ν → Visit ν) (stack : List ν) (marks : Marks ν) : Prop where
  stack_marked : ∀ node ∈ stack, node ∈ marks.marked
  entered_marked : ∀ node ∈ marks.entered, node ∈ marks.marked
  marked_entered : ∀ node ∈ marks.marked, node ∈ marks.entered
  finished : ∀ node ∈ marks.entered, node ∈ stack
    ∨ ∃ next, graph node = .calls next true ∧ ∀ other ∈ next, other ∈ marks.marked

/-- The same when a node has been marked and is about to be entered. -/
structure Ready (graph : ν → Visit ν) (stack : List ν) (node : ν) (marks : Marks ν) : Prop where
  fresh : node ∉ marks.entered
  not_stack : node ∉ stack
  stack_marked : ∀ other ∈ stack, other ∈ marks.marked
  entered_marked : ∀ other ∈ marks.entered, other ∈ marks.marked
  marked_entered : ∀ other ∈ marks.marked, other = node ∨ other ∈ marks.entered
  finished : ∀ other ∈ marks.entered, other ∈ stack
    ∨ ∃ next, graph other = .calls next true ∧ ∀ third ∈ next, third ∈ marks.marked

theorem ready_start (graph : ν → Visit ν) (root : ν) : Ready graph [] root .start := by
  constructor <;> simp [Marks.start]

theorem Between.mark (hbetween : Between graph stack marks) (hunmarked : node ∉ marks.marked) :
    Ready graph stack node (marks.mark node) where
  fresh := fun hmem => hunmarked (hbetween.entered_marked node hmem)
  not_stack := fun hmem => hunmarked (hbetween.stack_marked node hmem)
  stack_marked := fun other hmem => mem_cons_of_mem _ (hbetween.stack_marked other hmem)
  entered_marked := fun other hmem => mem_cons_of_mem _ (hbetween.entered_marked other hmem)
  marked_entered := fun other hmem => (mem_cons.mp hmem).imp_right (hbetween.marked_entered other)
  finished := by
    intro other hmem
    refine (hbetween.finished other hmem).imp_right ?_
    rintro ⟨next, hcalls, hnext⟩
    exact ⟨next, hcalls, fun third hthird => mem_cons_of_mem _ (hnext third hthird)⟩

theorem Ready.enter (hready : Ready graph stack node marks) :
    Between graph (node :: stack) (marks.enter node) where
  stack_marked := by
    intro other hmem
    refine mem_cons.mpr ((mem_cons.mp hmem).imp_right (hready.stack_marked other))
  entered_marked := by
    intro other hmem
    cases mem_append.mp hmem with
    | inl hold => exact mem_cons_of_mem _ (hready.entered_marked other hold)
    | inr hnew => rw [mem_singleton.mp hnew]; exact mem_cons_self
  marked_entered := by
    intro other hmem
    have hnode : node ∈ (marks.enter node).entered := mem_append_right _ mem_cons_self
    rcases mem_cons.mp hmem with rfl | hmarked
    · exact hnode
    · rcases hready.marked_entered other hmarked with rfl | hentered
      · exact hnode
      · exact mem_append_left _ hentered
  finished := by
    intro other hmem
    cases mem_append.mp hmem with
    | inr hnew => rw [mem_singleton.mp hnew]; exact .inl mem_cons_self
    | inl hold =>
      refine (hready.finished other hold).imp (mem_cons_of_mem _) ?_
      rintro ⟨next, hcalls, hnext⟩
      exact ⟨next, hcalls, fun third hthird => mem_cons_of_mem _ (hnext third hthird)⟩

/-- The node on top of the stack has finished. -/
theorem Between.leave {next : List ν} (hbetween : Between graph (node :: stack) marks)
    (hcalls : graph node = .calls next true) (hnext : ∀ other ∈ next, other ∈ marks.marked) :
    Between graph stack marks where
  stack_marked := fun other hmem => hbetween.stack_marked other (mem_cons_of_mem _ hmem)
  entered_marked := hbetween.entered_marked
  marked_entered := hbetween.marked_entered
  finished := by
    intro other hmem
    rcases hbetween.finished other hmem with hstack | hfinished
    · rcases mem_cons.mp hstack with rfl | hstack
      · exact .inr ⟨next, hcalls, hnext⟩
      · exact .inl hstack
    · exact .inr hfinished

theorem Between.of_avoiding (hbetween : Between graph stack marks) (hnode : node ∈ marks.marked)
    (hout : node ∉ stack) (hpath : Avoiding graph stack node other) :
    other ∈ marks.entered ∧ ∃ next, graph other = .calls next true
      ∧ ∀ third ∈ next, third ∈ marks.marked := by
  induction hpath with
  | refl =>
    have hentered := hbetween.marked_entered node hnode
    exact ⟨hentered, (hbetween.finished node hentered).resolve_left hout⟩
  | tail _ hstep ih =>
    obtain ⟨-, next, hcalls, hnext⟩ := ih
    have hentered := hbetween.marked_entered _ (hnext _ (hstep.1.mem hcalls))
    exact ⟨hentered, (hbetween.finished _ hentered).resolve_left hstep.2⟩

theorem Between.completes (hbetween : Between graph stack marks) (hnode : node ∈ marks.marked)
    (hout : node ∉ stack) : Completes graph stack node := by
  intro other hpath
  obtain ⟨-, next, hcalls, -⟩ := hbetween.of_avoiding hnode hout hpath
  exact ⟨next, hcalls⟩

/-- The nodes met open objects of their own. -/
structure Named (graph : ν → Visit ν) (root : ν) (key : ν → κ) (keys : List κ) : Prop where
  mem : ∀ node, Opens graph node → key node ∈ keys
  inj : ∀ first second, Met graph [] root first → Opens graph first → Met graph [] root second →
    Opens graph second → key first = key second → first = second

structure Sound (graph : ν → Visit ν) (marks : Marks ν) : Prop where
  marked : ∀ node ∈ marks.entered, node ∈ marks.marked
  nodup : marks.entered.Nodup
  opens : ∀ node ∈ marks.entered, Opens graph node

theorem sound_start (graph : ν → Visit ν) : Sound graph .start := by
  constructor <;> simp [Marks.start]

theorem Sound.mark (hsound : Sound graph marks) (node : ν) : Sound graph (marks.mark node) where
  marked := fun other hmem => mem_cons_of_mem _ (hsound.marked other hmem)
  nodup := hsound.nodup
  opens := hsound.opens

theorem Sound.enter (hsound : Sound graph marks) (hopens : Opens graph node)
    (hfresh : node ∉ marks.entered) : Sound graph (marks.enter node) where
  marked := by
    intro other hmem
    cases mem_append.mp hmem with
    | inl hold => exact mem_cons_of_mem _ (hsound.marked other hold)
    | inr hnew => rw [mem_singleton.mp hnew]; exact mem_cons_self
  nodup := by
    change (marks.entered ++ [node]).Nodup
    rw [← concat_eq_append]
    exact List.Nodup.concat hfresh hsound.nodup
  opens := by
    intro other hmem
    cases mem_append.mp hmem with
    | inl hold => exact hsound.opens other hold
    | inr hnew => rw [mem_singleton.mp hnew]; exact hopens

theorem Named.nodup (hnamed : Named graph root key keys) (hsound : Sound graph marks)
    (hmet : ∀ node ∈ marks.entered, Met graph [] root node) : (marks.entered.map key).Nodup := by
  apply Nodup.map_on _ hsound.nodup
  intro first hfirst second hsecond heq
  exact hnamed.inj first second (hmet first hfirst) (hsound.opens first hfirst) (hmet second hsecond)
    (hsound.opens second hsecond) heq

theorem Named.length_le (hnamed : Named graph root key keys) (hsound : Sound graph marks)
    (hmet : ∀ node ∈ marks.entered, Met graph [] root node) :
    marks.entered.length ≤ keys.length := by
  rw [← length_map key]
  apply (hnamed.nodup hsound hmet).length_le_of_subset
  intro object hobject
  obtain ⟨node, hnode, rfl⟩ := mem_map.mp hobject
  exact hnamed.mem node (hsound.opens node hnode)

structure Extends (before after : Marks ν) : Prop where
  marked : ∀ node ∈ before.marked, node ∈ after.marked
  entered : ∀ node ∈ before.entered, node ∈ after.entered

theorem Extends.trans {third : Marks ν} (hfirst : Extends first second) (hsecond : Extends second third) :
    Extends first third where
  marked := fun node hmem => hsecond.marked node (hfirst.marked node hmem)
  entered := fun node hmem => hsecond.entered node (hfirst.entered node hmem)

theorem extends_mark (marks : Marks ν) (node : ν) : Extends marks (marks.mark node) :=
  ⟨fun _ => mem_cons_of_mem _, fun _ hmem => hmem⟩

theorem extends_enter (marks : Marks ν) (node : ν) : Extends marks (marks.enter node) :=
  ⟨fun _ => mem_cons_of_mem _, fun _ => mem_append_left _⟩

end

variable [DecidableEq ν]

def visitAll (enter : ν → Marks ν → Option (Bool × Marks ν)) :
    List ν → Marks ν → Option (Bool × Marks ν)
  | [], marks => some (true, marks)
  | node :: rest, marks =>
    if node ∈ marks.marked then visitAll enter rest marks
    else andThen (visitAll enter rest) (enter node (marks.mark node))

/-- `none` when the fuel, the depth that is allowed for, is used up. -/
def visit (graph : ν → Visit ν) : Nat → ν → Marks ν → Option (Bool × Marks ν)
  | 0, _, _ => none
  | fuel + 1, node, marks =>
    match graph node with
    | .refused => some (false, marks)
    | .endless => none
    | .calls next finishes =>
      andThen (fun marks => some (finishes, marks))
        (visitAll (visit graph fuel) next (marks.enter node))

section

variable {enter : ν → Marks ν → Option (Bool × Marks ν)} {marks : Marks ν}

theorem visitAll_append (enter : ν → Marks ν → Option (Bool × Marks ν)) (first second : List ν)
    (marks : Marks ν) :
    visitAll enter (first ++ second) marks
      = andThen (visitAll enter second) (visitAll enter first marks) := by
  induction first generalizing marks with
  | nil => rfl
  | cons node first ih =>
    rw [cons_append, visitAll, visitAll]
    split
    · exact ih marks
    · match enter node (marks.mark node) with
      | none => rfl
      | some (false, between) => rfl
      | some (true, between) => exact ih between

theorem visitAll_invariant (invariant : Marks ν → Prop)
    (hent : ∀ node ∈ nodes, ∀ before, invariant before → node ∉ before.marked →
      ∀ result after, enter node (before.mark node) = some (result, after) → invariant after)
    (hmar : invariant marks) (hvis : visitAll enter nodes marks = some (result, marks')) :
    invariant marks' := by
  induction nodes generalizing marks with
  | nil =>
    cases hvis
    exact hmar
  | cons node nodes ih =>
    have htal := fun other hoth => hent other (mem_cons_of_mem _ hoth)
    rw [visitAll] at hvis
    split at hvis
    · exact ih htal hmar hvis
    next hunm =>
      obtain ⟨between, ⟨hbef, hrst⟩ | ⟨hbef, -, rfl⟩⟩ := andThen_eq_some hvis
      · have hbet := hent node mem_cons_self marks hmar hunm _ _ hbef
        exact ih htal hbet hrst
      · exact hent node mem_cons_self marks hmar hunm _ _ hbef

theorem visitAll_mono (hent : ∀ node marks result, enter node marks = some result →
      enter' node marks = some result)
    (hvis : visitAll enter nodes marks = some (result, marks')) :
    visitAll enter' nodes marks = some (result, marks') := by
  induction nodes generalizing marks with
  | nil => exact hvis
  | cons node nodes ih =>
    rw [visitAll] at hvis ⊢
    split at hvis
    next hmrk =>
      rw [if_pos hmrk]
      exact ih hvis
    next hunm =>
      rw [if_neg hunm]
      obtain ⟨between, ⟨hbef, hrst⟩ | ⟨hbef, rfl, rfl⟩⟩ := andThen_eq_some hvis
      · rw [hent node _ _ hbef]
        exact ih hrst
      · rw [hent node _ _ hbef]
        rfl

end

variable {graph : ν → Visit ν} {marks : Marks ν} {stack : List ν} {more : Nat}

theorem visit_succ_eq_some (hvis : visit graph (fuel + 1) node marks = some (result, marks')) :
    graph node = .refused ∧ result = false ∧ marks' = marks
      ∨ ∃ next finishes inner, graph node = .calls next finishes
        ∧ visitAll (visit graph fuel) next (marks.enter node) = some (inner, marks')
        ∧ result = (inner && finishes) := by
  rw [visit] at hvis
  cases hgra : graph node with
  | refused =>
    rw [hgra] at hvis
    cases hvis
    exact Or.inl ⟨rfl, rfl, rfl⟩
  | endless => rw [hgra] at hvis; contradiction
  | calls next finishes =>
    rw [hgra] at hvis
    right
    obtain ⟨between, ⟨hbef, hrst⟩ | ⟨hbef, rfl, rfl⟩⟩ := andThen_eq_some hvis
    · cases hrst
      exact ⟨next, _, true, rfl, hbef, (Bool.true_and _).symm⟩
    · exact ⟨next, finishes, false, rfl, hbef, rfl⟩

theorem visit_succ_of_calls {next : List ν} {finishes inner : Bool}
    (hgra : graph node = .calls next finishes)
    (hvis : visitAll (visit graph fuel) next (marks.enter node) = some (inner, marks')) :
    visit graph (fuel + 1) node marks = some (inner && finishes, marks') := by
  rw [visit, hgra]
  dsimp only
  rw [hvis]
  cases inner with
  | true => rfl
  | false => rfl

theorem visit_mono (hle : fuel ≤ more) (hvis : visit graph fuel node marks = some (result, marks')) :
    visit graph more node marks = some (result, marks') := by
  induction fuel generalizing more node marks result marks' with
  | zero => contradiction
  | succ fuel ih =>
    obtain ⟨more, rfl⟩ := Nat.exists_eq_add_of_le' hle
    rw [← Nat.add_assoc]
    obtain ⟨hgra, rfl, rfl⟩ | ⟨next, finishes, inner, hgra, hinn, rfl⟩ := visit_succ_eq_some hvis
    · rw [visit, hgra]
    · apply visit_succ_of_calls hgra
      apply visitAll_mono _ hinn
      intro node marks result hres
      exact ih (Nat.le_add_left fuel more) hres

theorem visitAll_extends (henter : ∀ node before result after,
      enter node before = some (result, after) → Extends before after)
    (hvisit : visitAll enter nodes marks = some (result, marks')) : Extends marks marks' :=
  visitAll_invariant (Extends marks)
    (fun node _ before hbefore _ _ _ hafter =>
      hbefore.trans ((extends_mark before node).trans (henter _ _ _ _ hafter)))
    ⟨fun _ hmem => hmem, fun _ hmem => hmem⟩ hvisit

theorem visit_extends (hvisit : visit graph fuel node marks = some (result, marks')) :
    Extends marks marks' := by
  induction fuel generalizing node marks result marks' with
  | zero => contradiction
  | succ fuel ih =>
    obtain ⟨-, -, rfl⟩ | ⟨next, finishes, inner, hcalls, hinner, -⟩ := visit_succ_eq_some hvisit
    · exact ⟨fun _ hmem => hmem, fun _ hmem => hmem⟩
    · exact (extends_enter marks node).trans
        (visitAll_extends (fun _ _ _ _ => ih) hinner)

theorem visitAll_result (hstack : ∀ node ∈ stack, node ∈ marks.marked)
    (henter : ∀ node ∈ nodes, ∀ before result after, (∀ other ∈ stack, other ∈ before.marked) →
      node ∉ stack → enter node before = some (result, after) →
      result = true ∧ Extends before after)
    (hvisit : visitAll enter nodes marks = some (result, marks')) : result = true := by
  induction nodes generalizing marks with
  | nil =>
    cases hvisit
    rfl
  | cons node nodes ih =>
    have hrest := fun other hmem => henter other (mem_cons_of_mem _ hmem)
    rw [visitAll] at hvisit
    split at hvisit
    · exact ih hstack hrest hvisit
    next hunmarked =>
      have hmarked : ∀ other ∈ stack, other ∈ (marks.mark node).marked :=
        fun other hmem => mem_cons_of_mem _ (hstack other hmem)
      have hout : node ∉ stack := fun hmem => hunmarked (hstack node hmem)
      obtain ⟨between, ⟨hbefore, hafter⟩ | ⟨hbefore, -, -⟩⟩ := andThen_eq_some hvisit
      · have hextends := (henter node mem_cons_self _ _ _ hmarked hout hbefore).2
        exact ih (fun other hmem => hextends.marked other (hmarked other hmem)) hrest hafter
      · exact absurd (henter node mem_cons_self _ _ _ hmarked hout hbefore).1 Bool.false_ne_true

/-- The nodes of the stack are marked, so the visit avoids them. -/
theorem visit_completes (hcompletes : Completes graph stack node)
    (hstack : ∀ other ∈ stack, other ∈ marks.marked)
    (hvisit : visit graph fuel node marks = some (result, marks')) : result = true := by
  induction fuel generalizing node marks result marks' with
  | zero => contradiction
  | succ fuel ih =>
    obtain ⟨next, hcalls⟩ := hcompletes node .refl
    obtain ⟨hrefused, -, -⟩ | ⟨next', finishes, inner, hcalls', hinner, rfl⟩ :=
      visit_succ_eq_some hvisit
    · rw [hcalls] at hrefused
      cases hrefused
    · rw [hcalls] at hcalls'
      cases hcalls'
      rw [Bool.and_true]
      refine visitAll_result (fun other hmem => mem_cons_of_mem _ (hstack other hmem)) ?_ hinner
      intro other hmem before result after hbefore hout hafter
      exact ⟨ih (fun third hpath => hcompletes third (hpath.head ⟨⟨next, true, hcalls, hmem⟩, hout⟩))
        hbefore hafter, visit_extends hafter⟩

/-- What a visit that returns has entered: exactly what is met and opens, besides what was entered
before. -/
structure Visited (graph : ν → Visit ν) (stack : List ν) (node : ν) (marks : Marks ν) (result : Bool)
    (after : Marks ν) : Prop where
  between : result = true → Between graph stack after ∧ node ∈ after.marked
  sound : ∀ other ∈ after.entered, other ∈ marks.entered ∨ Met graph stack node other
  complete : ∀ other, Met graph stack node other → Opens graph other → other ∈ after.entered

section

variable {node next : ν} {nodes : List ν} {finishes : Bool}
  (henter : ∀ other before result after, Ready graph (node :: stack) other before →
    visit graph fuel other before = some (result, after) →
    Visited graph (node :: stack) other before result after)

include henter

/-- The calls of a node, from those that have been made on. -/
theorem visitAll_visited (hcalls : graph node = .calls (done ++ nodes) finishes)
    (hbetween : Between graph (node :: stack) marks) (hdone : ∀ earlier ∈ done, earlier ∈ marks.marked)
    (hvisit : visitAll (visit graph fuel) nodes marks = some (result, marks')) :
    (result = true → Between graph (node :: stack) marks' ∧ ∀ other ∈ nodes, other ∈ marks'.marked)
      ∧ ∀ other ∈ marks'.entered, other ∈ marks.entered ∨ Met graph stack node other := by
  induction nodes generalizing done marks with
  | nil =>
    cases hvisit
    exact ⟨fun _ => ⟨hbetween, by simp⟩, fun other hmem => .inl hmem⟩
  | cons next nodes ih =>
    have hcalls' : graph node = .calls ((done ++ [next]) ++ nodes) finishes := by
      rw [hcalls, append_assoc, singleton_append]
    have hextends := visitAll_extends (fun _ _ _ _ => visit_extends) hvisit
    rw [visitAll] at hvisit
    split at hvisit
    next hmarked =>
      have hdone' : ∀ earlier ∈ done ++ [next], earlier ∈ marks.marked :=
        forall_mem_append.mpr ⟨hdone, by simpa using hmarked⟩
      obtain ⟨hresult, hsound⟩ := ih hcalls' hbetween hdone' hvisit
      exact ⟨fun htrue => ⟨(hresult htrue).1, forall_mem_cons.mpr
        ⟨hextends.marked next hmarked, (hresult htrue).2⟩⟩, hsound⟩
    next hunmarked =>
      have hready := hbetween.mark hunmarked
      -- what is met from the next node is met from this one, as the calls before it have completed
      have hpass : ∀ other, Met graph (node :: stack) next other → Met graph stack node other :=
        fun other => Met.child hcalls hready.not_stack
          fun earlier hearlier hout => hbetween.completes (hdone earlier hearlier) hout
      obtain ⟨between, ⟨hbefore, hafter⟩ | ⟨hbefore, rfl, rfl⟩⟩ := andThen_eq_some hvisit
      · have hvisited := henter next _ _ _ hready hbefore
        obtain ⟨hbetween', hnext⟩ := hvisited.between rfl
        have hmore : Extends marks between :=
          (extends_mark marks next).trans (visit_extends hbefore)
        have hdone' : ∀ earlier ∈ done ++ [next], earlier ∈ between.marked :=
          forall_mem_append.mpr
            ⟨fun earlier hearlier => hmore.marked earlier (hdone earlier hearlier), by simpa using hnext⟩
        obtain ⟨hresult, hsound⟩ := ih hcalls' hbetween' hdone' hafter
        have hlast := visitAll_extends (fun _ _ _ _ => visit_extends) hafter
        refine ⟨fun htrue => ⟨(hresult htrue).1, forall_mem_cons.mpr
          ⟨hlast.marked next hnext, (hresult htrue).2⟩⟩, fun other hmem => ?_⟩
        cases hsound other hmem with
        | inl hold => exact (hvisited.sound other hold).imp_right (hpass other)
        | inr hnew => exact .inr hnew
      · have hvisited := henter next _ _ _ hready hbefore
        exact ⟨fun hfalse => Bool.noConfusion hfalse,
          fun other hmem => (hvisited.sound other hmem).imp_right (hpass other)⟩

theorem visitAll_complete {before after : List ν} (hbetween : Between graph (node :: stack) marks)
    (hnext : next ∉ node :: stack)
    (hbefore : ∀ earlier ∈ before, earlier ∉ node :: stack → Completes graph (node :: stack) earlier)
    (hmet : Met graph (node :: stack) next other) (hopens : Opens graph other)
    (hvisit : visitAll (visit graph fuel) (before ++ next :: after) marks = some (result, marks')) :
    other ∈ marks'.entered := by
  induction before generalizing marks with
  | nil =>
    have hextends := visitAll_extends (fun _ _ _ _ => visit_extends) hvisit
    rw [nil_append, visitAll] at hvisit
    split at hvisit
    next hmarked =>
      exact hextends.entered other (hbetween.of_avoiding hmarked hnext hmet.avoiding).1
    next hunmarked =>
      obtain ⟨between, ⟨hfirst, hrest⟩ | ⟨hfirst, -, rfl⟩⟩ := andThen_eq_some hvisit
      · have hentered := (henter next _ _ _ (hbetween.mark hunmarked) hfirst).complete other hmet hopens
        exact (visitAll_extends (fun _ _ _ _ => visit_extends) hrest).entered other hentered
      · exact (henter next _ _ _ (hbetween.mark hunmarked) hfirst).complete other hmet hopens
  | cons earlier before ih =>
    have hbefore' := fun third hmem => hbefore third (mem_cons_of_mem _ hmem)
    rw [cons_append, visitAll] at hvisit
    split at hvisit
    · exact ih hbetween hbefore' hvisit
    next hunmarked =>
      have hready := hbetween.mark hunmarked
      have hcompletes := hbefore earlier mem_cons_self hready.not_stack
      obtain ⟨between, ⟨hfirst, hrest⟩ | ⟨hfirst, -, -⟩⟩ := andThen_eq_some hvisit
      · exact ih ((henter earlier _ _ _ hready hfirst).between rfl).1 hbefore' hrest
      · exact absurd (visit_completes hcompletes hready.stack_marked hfirst) Bool.false_ne_true

end

theorem visit_visited (hready : Ready graph stack node marks)
    (hvisit : visit graph fuel node marks = some (result, marks')) :
    Visited graph stack node marks result marks' := by
  induction fuel generalizing node marks result marks' stack with
  | zero => contradiction
  | succ fuel ih =>
    obtain ⟨hrefused, rfl, rfl⟩ | ⟨next, finishes, inner, hcalls, hinner, rfl⟩ :=
      visit_succ_eq_some hvisit
    · refine ⟨fun hfalse => Bool.noConfusion hfalse, fun other hmem => .inl hmem, ?_⟩
      rintro other hmet ⟨next, finishes, hopens⟩
      cases hmet with
      | here => rw [hrefused] at hopens; cases hopens
      | child hcalls _ _ _ => rw [hrefused] at hcalls; cases hcalls
    · have henter : ∀ other before result after, Ready graph (node :: stack) other before →
          visit graph fuel other before = some (result, after) →
          Visited graph (node :: stack) other before result after :=
        fun _ _ _ _ hready hafter => ih hready hafter
      have hcalls' : graph node = .calls ([] ++ next) finishes := hcalls
      have hextends := visitAll_extends (fun _ _ _ _ => visit_extends) hinner
      have hnode : node ∈ marks'.entered := hextends.entered node (mem_append_right _ mem_cons_self)
      obtain ⟨hresult, hsound⟩ := visitAll_visited henter hcalls' hready.enter (by simp) hinner
      refine ⟨fun htrue => ?_, fun other hmem => ?_, fun other hmet hopens => ?_⟩
      · obtain ⟨hinnerTrue, hfinishes⟩ := Bool.and_eq_true_iff.mp htrue
        obtain ⟨hbetween, hmarked⟩ := hresult hinnerTrue
        rw [hfinishes] at hcalls
        exact ⟨hbetween.leave hcalls hmarked, hbetween.entered_marked node hnode⟩
      · rcases hsound other hmem with hold | hmet
        · cases mem_append.mp hold with
          | inl hold => exact .inl hold
          | inr hnew => rw [mem_singleton.mp hnew]; exact .inr (.here stack node)
        · exact .inr hmet
      · cases hmet with
        | here => exact hnode
        | child hchild hnext hbefore hmet =>
          rw [hcalls] at hchild
          cases hchild
          exact visitAll_complete henter hready.enter hnext hbefore hmet hopens hinner

theorem Sound.visit (hsound : Sound graph marks) (hfresh : node ∉ marks.entered)
    (hvisit : visit graph fuel node marks = some (result, marks')) : Sound graph marks' := by
  induction fuel generalizing node marks result marks' with
  | zero => contradiction
  | succ fuel ih =>
    obtain ⟨-, -, rfl⟩ | ⟨next, finishes, inner, hcalls, hinner, -⟩ := visit_succ_eq_some hvisit
    · exact hsound
    · apply visitAll_invariant (Sound graph) _ (hsound.enter ⟨next, finishes, hcalls⟩ hfresh) hinner
      intro other _ before hbefore hunmarked result after hafter
      exact ih (hbefore.mark other) (fun hmem => hunmarked (hbefore.marked other hmem)) hafter

/-- The marks while the traversal from a root is under way. -/
structure Underway (graph : ν → Visit ν) (root : ν) (marks : Marks ν) : Prop extends
    Sound graph marks where
  met : ∀ node ∈ marks.entered, Met graph [] root node

theorem Underway.visit (hunderway : Underway graph root marks) (hready : Ready graph stack node marks)
    (hpass : ∀ other, Met graph stack node other → Met graph [] root other)
    (hvisit : visit graph fuel node marks = some (result, marks')) : Underway graph root marks' where
  toSound := hunderway.toSound.visit hready.fresh hvisit
  met := fun other hmem =>
    ((visit_visited hready hvisit).sound other hmem).elim (hunderway.met other) (hpass other)

section

variable {nodes : List ν} {finishes : Bool} {key : ν → κ} {keys : List κ}

theorem visitAll_total
    (htotal : ∀ other before, Ready graph (node :: stack) other before → Underway graph root before →
      (∀ third, Met graph (node :: stack) other third → Met graph [] root third) →
      bound ≤ before.entered.length → ∃ result after, visit graph fuel other before = some (result, after))
    (hcalls : graph node = .calls (done ++ nodes) finishes)
    (hbetween : Between graph (node :: stack) marks) (hdone : ∀ earlier ∈ done, earlier ∈ marks.marked)
    (hunderway : Underway graph root marks)
    (hpass : ∀ other, Met graph stack node other → Met graph [] root other)
    (hbound : bound ≤ marks.entered.length) :
    ∃ result after, visitAll (visit graph fuel) nodes marks = some (result, after) := by
  induction nodes generalizing done marks with
  | nil => exact ⟨true, marks, rfl⟩
  | cons next nodes ih =>
    have hcalls' : graph node = .calls ((done ++ [next]) ++ nodes) finishes := by
      rw [hcalls, append_assoc, singleton_append]
    rw [visitAll]
    split
    next hmarked =>
      exact ih hcalls' hbetween (forall_mem_append.mpr ⟨hdone, by simpa using hmarked⟩) hunderway hbound
    next hunmarked =>
      have hready := hbetween.mark hunmarked
      have hmark : Underway graph root (marks.mark next) := ⟨hunderway.toSound.mark next, hunderway.met⟩
      have hpass' : ∀ other, Met graph (node :: stack) next other → Met graph [] root other :=
        fun other hmet => hpass other (.child hcalls hready.not_stack
          (fun earlier hearlier hout => hbetween.completes (hdone earlier hearlier) hout) hmet)
      obtain ⟨result, after, hvisit⟩ := htotal next _ hready hmark hpass' hbound
      rw [hvisit]
      cases result with
      | false => exact ⟨false, after, rfl⟩
      | true =>
        obtain ⟨hbetween', hnext⟩ := (visit_visited hready hvisit).between rfl
        have hextends : Extends marks after := (extends_mark marks next).trans (visit_extends hvisit)
        have hafter := hmark.visit hready hpass' hvisit
        have hlonger := hunderway.nodup.length_le_of_subset fun other => hextends.entered other
        exact ih hcalls' hbetween' (forall_mem_append.mpr
          ⟨fun earlier hearlier => hextends.marked earlier (hdone earlier hearlier),
            by simpa using hnext⟩) hafter (hbound.trans hlonger)

theorem visit_total (hnamed : Named graph root key keys)
    (hend : ∀ node, Met graph [] root node → graph node ≠ .endless)
    (hready : Ready graph stack node marks) (hunderway : Underway graph root marks)
    (hpass : ∀ other, Met graph stack node other → Met graph [] root other)
    (hfuel : keys.length < fuel + marks.entered.length) :
    ∃ result after, visit graph fuel node marks = some (result, after) := by
  induction fuel generalizing node marks stack with
  | zero =>
    have hlen := hnamed.length_le hunderway.toSound hunderway.met
    omega
  | succ fuel ih =>
    have hmet := hpass node (.here stack node)
    cases hcalls : graph node with
    | refused => exact ⟨false, marks, by rw [visit, hcalls]⟩
    | endless => exact absurd hcalls (hend node hmet)
    | calls next finishes =>
      have henter : Underway graph root (marks.enter node) := by
        refine ⟨hunderway.toSound.enter ⟨next, finishes, hcalls⟩ hready.fresh, fun other hmem => ?_⟩
        cases mem_append.mp hmem with
        | inl hold => exact hunderway.met other hold
        | inr hnew => rw [mem_singleton.mp hnew]; exact hmet
      have hlen : (marks.enter node).entered.length = marks.entered.length + 1 := by simp [Marks.enter]
      have hcalls' : graph node = .calls ([] ++ next) finishes := hcalls
      -- each node entered leaves one object less, so the fuel goes down with the depth
      obtain ⟨inner, after, hinner⟩ := visitAll_total
        (fun other before hready hbefore hpass hbound => ih hready hbefore hpass (by omega))
        hcalls' hready.enter (by simp) henter hpass hlen.ge
      exact ⟨inner && finishes, after, visit_succ_of_calls hcalls hinner⟩

end

end Bes.Lib.Traversal
