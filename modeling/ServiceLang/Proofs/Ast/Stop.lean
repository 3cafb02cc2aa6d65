import ServiceLang.Proofs.Ast.Walk
import ServiceLang.Proofs.Record.Nodes

/-!
Walks that stop early.

A visitor has a state and answers each call with a verdict, so what it answers to a node
depends on the nodes before it.  `Walk.noted` is the same visitor with a list of its calls.  A walk
over nodes one after another makes the calls of `Walk.upToStop`: the shortest beginning of the nodes
that ends with an answer to stop, or all nodes if there is none (`Walk.upToStop_spec`).  A node is
walked in this way over its preorder (`Node.walk_calls`).
-/

namespace ServiceLang

namespace Walk

variable {σ : Type} (visit : Node → Walk σ)

/-- The state of the visitor once it is called on these nodes, whatever it answers. -/
def after (nodes : List Node) (s : σ) : σ := nodes.foldl (fun s n => (visit n s).1) s

/-- What the visitor answers to nodes one after another. -/
def answers : List Node → σ → List Verdict
  | [], _ => []
  | n :: ns, s => (visit n s).2 :: answers ns (visit n s).1

/-- The visitor with a list of the nodes that it is called on. -/
def noted (n : Node) : Walk (σ × List Node) := fun (s, called) =>
  (((visit n s).1, called ++ [n]), (visit n s).2)

/-- The last of the nodes is answered with a stop. -/
def Stops (s : σ) (nodes : List Node) : Prop := (answers visit nodes s).getLast? = some .stop

/-- The nodes up to the first that is answered with a stop. -/
def upToStop : List Node → σ → List Node
  | [], _ => []
  | n :: ns, s =>
    n :: match (visit n s).2 with
      | .stop => []
      | .goOn => upToStop ns (visit n s).1

/-- The shortest beginning of the nodes that ends with an answer to stop; all of them, if
there is none. -/
structure UpToStop (s : σ) (nodes called : List Node) : Prop where
  isPrefix : called <+: nodes
  shortest : ∀ ns, ns <+: nodes → Stops visit s ns → Stops visit s called ∧ called.length ≤ ns.length
  whole : (∀ ns, ns <+: nodes → ¬Stops visit s ns) → called = nodes

theorem not_stops_nil (s : σ) : ¬Stops visit s [] := by
  simp [Stops, answers]

theorem stops_cons_iff (n : Node) (ns : List Node) (s : σ) :
    Stops visit s (n :: ns) ↔ ((visit n s).2 = .stop ∧ ns = []) ∨ Stops visit (visit n s).1 ns := by
  cases ns with
  | nil => simp [Stops, answers]
  | cons m ns => simp [Stops, answers]

theorem upToStop_spec (nodes : List Node) (s : σ) : UpToStop visit s nodes (upToStop visit nodes s) := by
  induction nodes generalizing s with
  | nil =>
    refine ⟨List.prefix_rfl, fun ns hns hstop => ?_, fun _ => rfl⟩
    rw [List.prefix_nil.1 hns] at hstop
    exact absurd hstop (not_stops_nil visit s)
  | cons n nodes ih =>
    cases hv : (visit n s).2 with
    | stop =>
      have hcalled : upToStop visit (n :: nodes) s = [n] := by simp [upToStop, hv]
      have hstop : Stops visit s [n] := (stops_cons_iff visit n [] s).2 (.inl ⟨hv, rfl⟩)
      rw [hcalled]
      refine ⟨List.prefix_append [n] nodes, fun ns _ hns => ⟨hstop, ?_⟩, fun hnone => ?_⟩
      · cases ns with
        | nil => exact absurd hns (not_stops_nil visit s)
        | cons m ns => simp
      · exact absurd hstop (hnone [n] (List.prefix_append [n] nodes))
    | goOn =>
      have hcalled : upToStop visit (n :: nodes) s = n :: upToStop visit nodes (visit n s).1 := by
        simp [upToStop, hv]
      have hcons (ns : List Node) : Stops visit s (n :: ns) ↔ Stops visit (visit n s).1 ns := by
        simp [stops_cons_iff, hv]
      obtain ⟨hinitial, hshortest, hwhole⟩ := ih (visit n s).1
      rw [hcalled]
      refine ⟨List.cons_prefix_cons.2 ⟨rfl, hinitial⟩, fun ns hns hstop => ?_, fun hnone => ?_⟩
      · cases ns with
        | nil => exact absurd hstop (not_stops_nil visit s)
        | cons m ns =>
          obtain ⟨rfl, htail⟩ := List.cons_prefix_cons.1 hns
          obtain ⟨hcalled, hle⟩ := hshortest ns htail ((hcons ns).1 hstop)
          exact ⟨(hcons _).2 hcalled, Nat.succ_le_succ hle⟩
      · rw [hwhole fun ns hns hstop =>
          hnone (n :: ns) (List.cons_prefix_cons.2 ⟨rfl, hns⟩) ((hcons ns).2 hstop)]

/-! ## Walks over lists -/

/-- What a walk over nodes says: to stop, if one of the calls was answered so. -/
def verdict (nodes : List Node) (s : σ) : Verdict :=
  if .stop ∈ answers visit (upToStop visit nodes s) s then .stop else .goOn

theorem each_eq (nodes : List Node) (s : σ) :
    each visit nodes s = (after visit (upToStop visit nodes s) s, verdict visit nodes s) := by
  induction nodes generalizing s with
  | nil => simp [each, done, upToStop, after, verdict, answers]
  | cons n nodes ih =>
    cases hv : visit n s with
    | mk s' v =>
      cases v with
      | stop => simp [each, andThen, upToStop, after, verdict, answers, hv]
      | goOn =>
        have hrest := ih s'
        simp only [after, verdict] at hrest
        simp [each, andThen, upToStop, after, verdict, answers, hv, hrest]

/-- Keeping a list of the calls changes neither the calls nor what comes of them. -/
theorem each_noted_eq (nodes : List Node) (s : σ) (called : List Node) :
    each (noted visit) nodes (s, called) =
      ((after visit (upToStop visit nodes s) s, called ++ upToStop visit nodes s),
        verdict visit nodes s) := by
  induction nodes generalizing s called with
  | nil => simp [each, done, upToStop, after, verdict, answers]
  | cons n nodes ih =>
    cases hv : visit n s with
    | mk s' v =>
      cases v with
      | stop => simp [each, andThen, noted, upToStop, after, verdict, answers, hv]
      | goOn =>
        have hrest := ih s' (called ++ [n])
        simp only [after, verdict] at hrest
        simp [each, andThen, noted, upToStop, after, verdict, answers, hv, hrest]

end Walk

/-- The preorder of a node is the node and then the preorders of its children, and lists exactly the
nodes that stand in its record, in the order of the fields.  Whatever the visitor and its state, a
walk calls it on the shortest beginning of the preorder that ends with an answer to stop, or on all
of the preorder if there is none, and stops just if there is such an answer. -/
theorem Node.walk_calls {σ : Type} (visit : Node → Walk σ) (n : Node) (s : σ) :
    n.preorder = n :: n.children.flatMap Node.preorder ∧
      n.record.nodes = n.preorder.map Node.record ∧
      ∃ called verdict,
        n.walk (Walk.noted visit) (s, []) = ((Walk.after visit called s, called), verdict) ∧
        n.walk visit s = (Walk.after visit called s, verdict) ∧
        Walk.UpToStop visit s n.preorder called ∧
        (verdict = .stop ↔ .stop ∈ Walk.answers visit called s) := by
  refine ⟨n.preorder_eq, n.nodes_record, Walk.upToStop visit n.preorder s,
    Walk.verdict visit n.preorder s, ?_, ?_, Walk.upToStop_spec visit n.preorder s, ?_⟩
  · rw [n.walk_eq, Walk.each_noted_eq, List.nil_append]
  · rw [n.walk_eq, Walk.each_eq]
  · simp [Walk.verdict]

end ServiceLang
