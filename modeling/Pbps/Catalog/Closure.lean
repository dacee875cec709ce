/-
The dependency closure is complete and safe: it ends without a lookup in vain, and succeeds exactly where the evidence is
sound.
-/
import Mathlib.Algebra.Order.BigOperators.Group.Finset
import Pbps.Catalog.Graph
import Pbps.Lib.Check

namespace Pbps.Catalog

open Std (ExtTreeMap ExtTreeSet)
open Relation (TransGen ReflTransGen)
open Std.ExtTreeSet (mem_toList not_mem_empty)
open Except Std.ExtTreeMap

variable {debug : Debug} {g : Graph} {root : Root} {u v w : Object} {node : Node}

/-! ## What the evidence says -/

namespace Graph

def IsNode (g : Graph) (v : Object) (node : Node) : Prop := g.nodes[v]? = some (.present node)

def Links (g : Graph) (v : Object) (link : Link) : Prop :=
  ∃ node links, g.IsNode v node ∧ node.dependents = .present links ∧ link ∈ links

/-- The first object is owned by the second. -/
def OwnedBy (g : Graph) (v w : Object) : Prop := ∃ node kind, g.IsNode v node ∧ node.held = .owned w kind

def Leads (g : Graph) (v w : Object) : Prop := (∃ link, g.Links v link ∧ link.dependent = w) ∨ g.OwnedBy v w

/-- An object that a walk from the root comes to. -/
def Reachable (g : Graph) (root : Root) (v : Object) : Prop :=
  ∃ start, g.roots[root]? = some (.present start) ∧ ReflTransGen g.Leads start v

def Readable (g : Graph) (v : Object) : Prop := ∃ node links, g.IsNode v node ∧ node.dependents = .present links

def Firm (g : Graph) (v : Object) : Prop := ∀ w, ReflTransGen g.OwnedBy v w → (∃ node, g.IsNode w node) ∧ ¬ TransGen g.OwnedBy w w

/-- The root is of its kind, and bound to an object that is held as this root. -/
def Bound (g : Graph) (root : Root) : Prop :=
  (∀ uid, root = .table uid → uid.kind = .table) ∧
    ∃ start node, g.roots[root]? = some (.present start) ∧ g.IsNode start node ∧ node.held = .root root

/-- One ultimate owner waits for another: a link between theirs says so, unless it is an object's own ownership. -/
def Waits (g : Graph) (root : Root) (a b : Object) : Prop :=
  ∃ u link, g.Reachable root u ∧ g.Links u link ∧ Chain.Ends g.OwnedBy u a ∧ Chain.Ends g.OwnedBy link.dependent b ∧
    (a ≠ b ∨ link.binding.isOwnership = false)

structure Sound (g : Graph) (root : Root) : Prop where
  bound : g.Bound root
  readable : ∀ v, g.Reachable root v → g.Readable v
  keys : ∀ v link key, g.Reachable root v → g.Links v link → link.binding = .foreignKey key → g.Firm key
  owned : ∀ v, g.Reachable root v → ¬ TransGen g.OwnedBy v v
  acyclic : ∀ a, ¬ TransGen (g.Waits root) a a

theorem IsNode.unique {n n' : Node} (h : g.IsNode v n) (h' : g.IsNode v n') : n = n' := by
  rw [IsNode, h] at h'; cases h'; rfl

theorem ownedBy_unique : Relator.RightUnique g.OwnedBy := by
  rintro v w w' ⟨n, k, hn, hk⟩ ⟨n', k', hn', hk'⟩
  obtain rfl := hn.unique hn'
  rw [hk] at hk'; cases hk'; rfl

theorem ends_of_not_owned (hnode : g.IsNode v node) (h : node.held.owner = none) : Chain.Ends g.OwnedBy v v := by
  refine ⟨.refl, ?_⟩
  rintro w ⟨n, k, hn, hk⟩
  obtain rfl := hnode.unique hn
  rw [hk] at h; cases h

theorem links_iff {links : ExtTreeSet Link} (hnode : g.IsNode v node) (hlinks : node.dependents = .present links) {link : Link} :
    g.Links v link ↔ link ∈ links := by
  constructor
  · rintro ⟨n, ls, hn, hls, hmem⟩
    obtain rfl := hnode.unique hn
    rw [hlinks] at hls; cases hls; exact hmem
  · exact fun hmem => ⟨node, links, hnode, hlinks, hmem⟩

theorem ownedBy_iff (hnode : g.IsNode v node) : g.OwnedBy v w ↔ node.held.owner = some w := by
  constructor
  · rintro ⟨n, k, hn, hk⟩
    obtain rfl := hnode.unique hn
    rw [hk]; rfl
  · intro h
    cases hheld : node.held with
    | owned by_ kind => rw [hheld] at h; cases h; exact ⟨node, kind, hnode, hheld⟩
    | root _ | dependent _ => rw [hheld] at h; cases h

/-! ## Reading a fact -/

variable {T : Type}

theorem require_cases (name : String) (f : Fact T) : (∃ value, f = .present value ∧ f.require name = .ok value) ∨
    ((∀ value, f ≠ .present value) ∧ ∃ why, f.require name = .error (.refused why)) := by
  cases f with
  | present value => exact .inl ⟨value, rfl, rfl⟩
  | absent | unreadable _ => exact .inr ⟨fun _ h => (by cases h), _, rfl⟩

theorem require_get_cases {K : Type} [Ord K] [Std.TransOrd K] (m : ExtTreeMap K (Fact T)) (k : K) (name : String) :
    (∃ value, m[k]? = some (Fact.present value) ∧ Fact.require name ((m[k]?).getD .absent) = .ok value) ∨
    ((∀ value, m[k]? ≠ some (Fact.present value)) ∧ ∃ why, Fact.require name ((m[k]?).getD .absent) = .error (.refused why)) := by
  cases h : m[k]? with
  | none => exact .inr ⟨fun _ h => (by cases h), _, rfl⟩
  | some f =>
    rw [Option.getD_some]
    rcases require_cases name f with ⟨value, rfl, hok⟩ | ⟨hno, herr⟩
    · exact .inl ⟨value, rfl, hok⟩
    · exact .inr ⟨fun value h => hno value (Option.some.inj h), herr⟩

theorem node_cases (v : Object) : (∃ n, g.IsNode v n ∧ g.node debug v = .ok n) ∨
    ((∀ n, ¬ g.IsNode v n) ∧ ∃ why, g.node debug v = .error (.refused why)) :=
  require_get_cases g.nodes v (debug.object v)

theorem IsNode.mem_keys (h : g.IsNode v node) : v ∈ g.nodes.keys := ExtTreeMap.mem_keys.2 (mem_of_getElem?_eq h)

/-! ## The owners of a key -/

theorem Firm.of_end (hnode : g.IsNode v node) (h : node.held.owner = none) : g.Firm v := by
  have hend := ends_of_not_owned hnode h
  intro w hw
  refine ⟨?_, hend.acyclic ownedBy_unique hw⟩
  rw [Chain.eq_of_no_next hend.2 hw]
  exact ⟨node, hnode⟩

theorem firm_iff (hnode : g.IsNode v node) (hvw : g.OwnedBy v w) : g.Firm v ↔ g.Firm w := by
  constructor
  · exact fun h x hx => h x (.head hvw hx)
  · intro h x hx
    rcases ReflTransGen.cases_head hx with rfl | ⟨w', hvw', hx⟩
    · refine ⟨⟨node, hnode⟩, fun hcycle => ?_⟩
      obtain ⟨w', hvw', hback⟩ := TransGen.head'_iff.1 hcycle
      obtain rfl := ownedBy_unique hvw hvw'
      exact (h v hback).2 hcycle
    · obtain rfl := ownedBy_unique hvw hvw'
      exact h x hx

theorem bindKey_cases : ∀ (fuel : Nat) (bindings : ExtTreeMap Object Node) {seen : ExtTreeSet Object} {key : Object},
    Chain.Passed g.OwnedBy g.nodes.keys seen key → g.nodes.size + 1 ≤ fuel + seen.size →
      (∃ b, g.bindKey debug fuel bindings seen key = .ok b ∧ g.Firm key) ∨
      ((∃ why, g.bindKey debug fuel bindings seen key = .error (.refused why)) ∧ ¬ g.Firm key)
  | 0, _, _, _, hpassed, hfuel => by
    have := hpassed.size_le
    rw [length_keys] at this
    omega
  | fuel + 1, bindings, seen, key, hpassed, hfuel => by
    rw [bindKey]
    rcases @node_cases debug g key with ⟨n, hn, hok⟩ | ⟨hno, why, herr⟩
    · simp only [bind, Except.bind, hok]
      by_cases hseen : seen.contains key = true
      · simp only [if_pos hseen]
        exact .inr ⟨⟨_, rfl⟩, fun hfirm => (hfirm key .refl).2 (hpassed.cycle hseen)⟩
      · simp only [if_neg hseen]
        cases hheld : n.held with
        | root r => exact .inl ⟨_, rfl, .of_end hn (by rw [hheld]; rfl)⟩
        | dependent d => exact .inl ⟨_, rfl, .of_end hn (by rw [hheld]; rfl)⟩
        | owned by_ kind =>
          have howned : g.OwnedBy key by_ := ⟨n, kind, hn, hheld⟩
          rw [firm_iff hn howned]
          exact bindKey_cases fuel _ (hpassed.next hn.mem_keys howned) (by rw [Chain.size_insert_of_new hseen]; omega)
    · rw [herr]
      refine .inr ⟨⟨why, rfl⟩, fun hfirm => ?_⟩
      obtain ⟨n, hn⟩ := (hfirm key .refl).1
      exact hno n hn

/-! ## A node taken up -/

def FirmLink (g : Graph) (link : Link) : Prop := ∀ key, link.binding = .foreignKey key → g.Firm key

def Good (g : Graph) (v : Object) : Prop := g.Readable v ∧ ∀ link, g.Links v link → g.FirmLink link

theorem visitLink_cases (out : Closure) (id : Object) (link : Link) :
    (∃ b, g.visitLink debug id out link = .ok { out with edges := out.edges.insert ⟨id, link⟩, bindings := b } ∧ g.FirmLink link) ∨
    ((∃ why, g.visitLink debug id out link = .error (.refused why)) ∧ ¬ g.FirmLink link) := by
  rw [visitLink]
  by_cases hkey : ∃ key, link.binding = .foreignKey key
  · obtain ⟨key, hkey⟩ := hkey
    simp only [hkey, bind, Except.bind]
    have hfirm : g.FirmLink link ↔ g.Firm key := by
      refine ⟨fun h => h key hkey, fun h k hk => ?_⟩
      rw [hkey] at hk; cases hk; exact h
    rw [hfirm]
    rcases @bindKey_cases debug g (g.nodes.size + 1) out.bindings _ _ Chain.passed_start (Nat.le_add_right _ _) with
      ⟨b, hb, h⟩ | ⟨⟨why, herr⟩, h⟩
    · exact .inl ⟨b, by rw [hb]; rfl, h⟩
    · exact .inr ⟨⟨why, by rw [herr]⟩, h⟩
  · refine .inl ⟨out.bindings, ?_, fun key h => absurd ⟨key, h⟩ hkey⟩
    cases h : link.binding with
    | foreignKey key => exact absurd ⟨key, h⟩ hkey
    | ownership | object | column | argument | result => rfl

theorem foldlM_visitLink_cases (id : Object) : ∀ (links : List Link) (out : Closure),
    (∃ out', links.foldlM (g.visitLink debug id) out = .ok out' ∧ out'.nodes = out.nodes ∧
      (∀ e, e ∈ out'.edges ↔ e ∈ out.edges ∨ ∃ link ∈ links, e = ⟨id, link⟩) ∧ ∀ link ∈ links, g.FirmLink link) ∨
    ((∃ why, links.foldlM (g.visitLink debug id) out = .error (.refused why)) ∧ ∃ link ∈ links, ¬ g.FirmLink link)
  | [], out => .inl ⟨out, rfl, rfl, fun e => by simp, fun _ h => absurd h List.not_mem_nil⟩
  | link :: links, out => by
    rw [List.foldlM_cons]
    rcases @visitLink_cases debug g out id link with ⟨b, hok, hfirm⟩ | ⟨⟨why, herr⟩, hnot⟩
    · rw [hok]
      rcases foldlM_visitLink_cases id links { out with edges := out.edges.insert ⟨id, link⟩, bindings := b } with
        ⟨out', hout', hnodes, hedges, hall⟩ | ⟨⟨why, herr⟩, bad, hbad, hnot⟩
      · refine .inl ⟨out', hout', hnodes, fun e => ?_, List.forall_mem_cons.2 ⟨hfirm, hall⟩⟩
        rw [hedges, ExtTreeSet.mem_insert, Std.compare_eq_iff_eq, List.exists_mem_cons_iff, eq_comm, or_comm (a := e = _), or_assoc]
      · exact .inr ⟨⟨why, herr⟩, bad, List.mem_cons_of_mem _ hbad, hnot⟩
    · exact .inr ⟨⟨why, by rw [herr]; rfl⟩, link, List.mem_cons_self, hnot⟩

theorem visit_cases (out : Closure) (v : Object) :
    (∃ node out' pushed, g.IsNode v node ∧ g.visit debug out v = .ok (out', pushed) ∧ out'.nodes = out.nodes.insert v node ∧
      (∀ e, e ∈ out'.edges ↔ e ∈ out.edges ∨ ∃ link, g.Links v link ∧ e = ⟨v, link⟩) ∧ (∀ w, w ∈ pushed ↔ g.Leads v w) ∧
      pushed.length ≤ g.weight v ∧ g.Good v) ∨ ((∃ why, g.visit debug out v = .error (.refused why)) ∧ ¬ g.Good v) := by
  rw [visit]
  rcases @node_cases debug g v with ⟨node, hnode, hok⟩ | ⟨hno, why, herr⟩
  · rw [hok]
    rcases require_cases node.described node.dependents with ⟨links, hlinks, hok⟩ | ⟨hno, why, herr⟩
    · have hiff : ∀ link, g.Links v link ↔ link ∈ links.toList := fun link => by
        rw [links_iff hnode hlinks, mem_toList]
      rcases @foldlM_visitLink_cases debug g v links.toList out with
        ⟨out', hout', hnodes, hedges, hall⟩ | ⟨⟨why, herr⟩, bad, hbad, hnot⟩
      · refine .inl ⟨node, _, _, hnode, by simp only [bind, Except.bind, hok, hout']; rfl, ?_, ?_, ?_, ?_, ⟨node, links, hnode, hlinks⟩, ?_⟩
        · rw [hnodes]
        · intro e
          simp only [hedges, hiff]
        · intro w
          rw [List.mem_reverse, List.mem_append, List.mem_map, Leads, ownedBy_iff hnode, Option.mem_toList]
          simp only [hiff]
        · rw [weight, show g.nodes[v]? = some (.present node) from hnode]
          obtain ⟨described, held, dependents⟩ := node
          cases hlinks
          show _ ≤ links.size + 1
          rw [List.length_reverse, List.length_append, List.length_map, ExtTreeSet.length_toList]
          exact Nat.add_le_add_left (by cases held.owner <;> simp) _
        · exact fun link hlink => hall link ((hiff link).1 hlink)
      · refine .inr ⟨⟨why, by simp only [bind, Except.bind, hok, herr]⟩, fun hgood => ?_⟩
        exact hnot (hgood.2 bad ((hiff bad).2 hbad))
    · refine .inr ⟨⟨why, by simp only [bind, Except.bind, herr]⟩, ?_⟩
      rintro ⟨⟨n, links, hn, hlinks⟩, -⟩
      obtain rfl := hnode.unique hn
      exact hno links hlinks
  · refine .inr ⟨⟨why, by rw [herr]; rfl⟩, ?_⟩
    rintro ⟨⟨n, -, hn, -⟩, -⟩
    exact hno n hn

/-! ## The search -/

/-- What is taken up so far: nodes as the evidence has them, each good, with the links that leave it. -/
structure Taken (g : Graph) (out : Closure) : Prop where
  node : ∀ v n, out.nodes[v]? = some n → g.IsNode v n ∧ g.Good v
  edges : ∀ e, e ∈ out.edges ↔ e.from_ ∈ out.nodes ∧ g.Links e.from_ e.link

theorem taken_start : g.Taken {} := by
  refine ⟨fun v n h => ?_, fun e => iff_of_false ExtTreeMap.not_mem_empty fun h => ExtTreeMap.not_mem_empty h.1⟩
  rw [show ({} : Closure).nodes[v]? = none from getElem?_empty] at h
  cases h

theorem Taken.visit {out out' : Closure} {pushed : List Object} (h : g.Taken out)
    (hvisit : g.visit debug out v = .ok (out', pushed)) : g.Taken out' := by
  rcases @visit_cases debug g out v with ⟨node, r, p, hnode, hok, hnodes, hedges, -, -, hgood⟩ | ⟨⟨why, herr⟩, -⟩
  · rw [hvisit] at hok; cases hok
    refine ⟨fun w n hw => ?_, fun e => ?_⟩
    · rw [hnodes, getElem?_insert_eq_some] at hw
      rcases hw with ⟨rfl, rfl⟩ | ⟨-, hw⟩
      · exact ⟨hnode, hgood⟩
      · exact h.node w n hw
    · rw [hedges, h.edges, hnodes, mem_insert, Std.compare_eq_iff_eq]
      constructor
      · rintro (⟨hmem, hlinks⟩ | ⟨link, hlinks, rfl⟩)
        · exact ⟨.inr hmem, hlinks⟩
        · exact ⟨.inl rfl, hlinks⟩
      · rintro ⟨heq | hmem, hlinks⟩
        · exact .inr ⟨e.link, heq ▸ hlinks, by rw [heq]⟩
        · exact .inl ⟨hmem, hlinks⟩
  · rw [hvisit] at herr; cases herr

theorem search_lawful (start : Object) : Worklist.Lawful (g.search debug) g.Leads [start] g.nodes.keys.toFinset g.weight := by
  have hcases : ∀ {out : Closure} {v : Object} {out' : Closure} {pushed : List Object},
      (g.search debug).visit out v = .ok (out', pushed) → ∃ node, g.IsNode v node ∧ out'.nodes = out.nodes.insert v node ∧
        (∀ w, w ∈ pushed ↔ g.Leads v w) ∧ pushed.length ≤ g.weight v := by
    intro out v out' pushed h
    rcases @visit_cases debug g out v with ⟨node, r, p, hnode, hok, hnodes, -, hpushed, hlength, -⟩ | ⟨⟨why, herr⟩, -⟩
    · rw [show g.visit debug out v = .ok (out', pushed) from h] at hok; cases hok
      exact ⟨node, hnode, hnodes, hpushed, hlength⟩
    · rw [show g.visit debug out v = .ok (out', pushed) from h] at herr; cases herr
  constructor
  case seen =>
    intro out v out' pushed h u
    obtain ⟨node, -, hnodes, -, -⟩ := hcases h
    show out'.nodes.contains u = true ↔ u = v ∨ out.nodes.contains u = true
    rw [hnodes, contains_iff_mem, contains_iff_mem, mem_insert, Std.compare_eq_iff_eq,
      eq_comm]
  case pushed =>
    intro out v out' pushed h
    obtain ⟨node, -, -, hpushed, -⟩ := hcases h
    exact hpushed
  case vertex =>
    intro out v out' pushed _ h
    obtain ⟨node, hnode, -, -, -⟩ := hcases h
    exact List.mem_toFinset.2 hnode.mem_keys
  case length =>
    intro out v out' pushed h
    obtain ⟨node, -, -, -, hlength⟩ := hcases h
    exact hlength

theorem search_cases (start : Object) :
    (∃ out, Worklist.run (g.search debug) .exhausted (1 + (g.nodes.keys.map g.weight).sum) {} [start] = .ok out ∧ g.Taken out ∧
      ∀ v, v ∈ out.nodes ↔ ReflTransGen g.Leads start v) ∨
    (∃ why, Worklist.run (g.search debug) .exhausted (1 + (g.nodes.keys.map g.weight).sum) {} [start] = .error (.refused why)) ∧
      ∃ v, ReflTransGen g.Leads start v ∧ ¬ g.Good v := by
  have hstart : Worklist.Inv (g.search debug) g.Leads [start] {} [start] :=
    Worklist.inv_start fun v => show (∅ : ExtTreeMap Object Node).contains v = false from contains_empty
  have hroom : Worklist.left (g.search debug) g.nodes.keys.toFinset g.weight {} [start] ≤ 1 + (g.nodes.keys.map g.weight).sum := by
    rw [Worklist.left, List.length_singleton, ← List.sum_toFinset _ nodup_keys]
    exact Nat.add_le_add_left (Finset.sum_le_sum_of_subset_of_nonneg (Finset.filter_subset _ _) fun _ _ _ => Nat.zero_le _) _
  have hreach : ∀ v, Worklist.Reach g.Leads [start] v ↔ ReflTransGen g.Leads start v := fun v => by
    simp only [Worklist.Reach, List.mem_singleton, exists_eq_left]
  rcases Worklist.run_spec (@search_lawful debug g start) .exhausted g.Taken (fun _ _ _ _ h _ _ hv => h.visit hv)
    (1 + (g.nodes.keys.map g.weight).sum) {} [start] taken_start hstart hroom with ⟨out, hrun, htaken, hseen⟩ | ⟨s, v, e, hrun, -, hv, hvisit⟩
  · refine .inl ⟨out, hrun, htaken, fun v => ?_⟩
    rw [← hreach, ← hseen]
    exact contains_iff_mem.symm
  · rcases @visit_cases debug g s v with ⟨-, r, p, -, hok, -⟩ | ⟨⟨why, herr⟩, hbad⟩
    · rw [show g.visit debug s v = .error e from hvisit] at hok; cases hok
    · rw [show g.visit debug s v = .error e from hvisit] at herr; cases herr
      exact .inr ⟨⟨why, hrun⟩, v, (hreach v).1 hv, hbad⟩

end Graph

/-! ## Ultimate owners -/

section Owners

variable {nodes : ExtTreeMap Object Node}

theorem ownerFrom_cases (hnodes : ∀ v n, nodes[v]? = some n → g.IsNode v n) (hclosed : ∀ v w, v ∈ nodes → g.OwnedBy v w → w ∈ nodes) :
    ∀ (fuel : Nat) {seen : ExtTreeSet Object} {v : Object}, Chain.Passed g.OwnedBy nodes.keys seen v → v ∈ nodes →
      nodes.size + 1 ≤ fuel + seen.size →
      (∃ e, ownerFrom nodes fuel seen v = .ok e ∧ Chain.Ends g.OwnedBy v e) ∨
      ((∃ why, ownerFrom nodes fuel seen v = .error (.refused why)) ∧ ∃ c, ReflTransGen g.OwnedBy v c ∧ TransGen g.OwnedBy c c)
  | 0, _, _, hpassed, _, hfuel => by
    have := hpassed.size_le
    rw [length_keys] at this
    omega
  | fuel + 1, seen, v, hpassed, hv, hfuel => by
    obtain ⟨n, hn⟩ := mem_iff_exists.1 hv
    have hnode := hnodes v n hn
    rw [ownerFrom, hn]
    cases hheld : n.held with
    | root r =>
      simp only [hheld]
      exact .inl ⟨v, rfl, Graph.ends_of_not_owned hnode (by rw [hheld]; rfl)⟩
    | dependent d =>
      simp only [hheld]
      exact .inl ⟨v, rfl, Graph.ends_of_not_owned hnode (by rw [hheld]; rfl)⟩
    | owned by_ kind =>
      have howned : g.OwnedBy v by_ := ⟨n, kind, hnode, hheld⟩
      simp only [hheld]
      by_cases hseen : seen.contains v = true
      · rw [if_pos hseen]
        exact .inr ⟨⟨_, rfl⟩, v, .refl, hpassed.cycle hseen⟩
      · rw [if_neg hseen]
        rcases ownerFrom_cases hnodes hclosed fuel (hpassed.next (mem_keys.2 hv) howned) (hclosed v by_ hv howned)
          (by rw [Chain.size_insert_of_new hseen]; omega) with ⟨e, hok, hend⟩ | ⟨herr, c, hc, hcycle⟩
        · exact .inl ⟨e, hok, hend.head howned⟩
        · exact .inr ⟨herr, c, .head howned hc, hcycle⟩

theorem owners_cases (hnodes : ∀ v n, nodes[v]? = some n → g.IsNode v n) (hclosed : ∀ v w, v ∈ nodes → g.OwnedBy v w → w ∈ nodes) :
    (∃ o, owners nodes = .ok o ∧ (∀ v ∈ nodes, ∃ e, Chain.Ends g.OwnedBy v e) ∧
      ∀ v e, o[v]? = some e ↔ v ∈ nodes ∧ Chain.Ends g.OwnedBy v e) ∨
    ((∃ why, owners nodes = .error (.refused why)) ∧ ∃ v ∈ nodes, ∃ c, ReflTransGen g.OwnedBy v c ∧ TransGen g.OwnedBy c c) := by
  have hfrom : ∀ v ∈ nodes, _ := fun v hv => ownerFrom_cases hnodes hclosed (nodes.size + 1) Chain.passed_start hv (Nat.le_add_right _ _)
  rw [owners]
  rcases mapM_cases (f := fun id => (ownerFrom nodes (nodes.size + 1) ∅ id).map (id, ·)) nodes.keys with ⟨m, hm⟩ | ⟨v, hv, e, hve, hm⟩
  · rw [hm]
    have hall := mapM_eq_ok.1 hm
    have hends : ∀ v ∈ nodes, ∃ e, Chain.Ends g.OwnedBy v e := by
      intro v hv
      obtain ⟨p, -, h⟩ := hall.exists_of_mem_left (mem_keys.2 hv)
      obtain ⟨e, he, -⟩ := map_eq_ok.1 h
      rcases hfrom v hv with ⟨e', -, hend⟩ | ⟨⟨why, herr⟩, -⟩
      · exact ⟨e', hend⟩
      · rw [herr] at he; cases he
    refine .inl ⟨_, rfl, hends, fun v e => ?_⟩
    have hfst : m.map Prod.fst = nodes.keys := by
      have := hall.map_eq (f := id) (g := Prod.fst) fun v p h => by
        obtain ⟨e, -, rfl⟩ := map_eq_ok.1 h
        rfl
      rw [← this, List.map_id]
    rw [getElem?_ofList_eq_some (by rw [hfst]; exact nodup_keys)]
    constructor
    · intro hmem
      obtain ⟨v', hv', h⟩ := hall.exists_of_mem_right hmem
      obtain ⟨e', he', heq⟩ := map_eq_ok.1 h
      cases heq
      have hmem' := mem_keys.1 hv'
      rcases hfrom v hmem' with ⟨e'', hok, hend⟩ | ⟨⟨why, herr⟩, -⟩
      · rw [hok] at he'; cases he'
        exact ⟨hmem', hend⟩
      · rw [herr] at he'; cases he'
    · rintro ⟨hv, hend⟩
      obtain ⟨p, hp, h⟩ := hall.exists_of_mem_left (mem_keys.2 hv)
      obtain ⟨e', he', rfl⟩ := map_eq_ok.1 h
      rcases hfrom v hv with ⟨e'', hok, hend'⟩ | ⟨⟨why, herr⟩, -⟩
      · rw [hok] at he'; cases he'
        rwa [hend.unique Graph.ownedBy_unique hend']
      · rw [herr] at he'; cases he'
  · rw [hm]
    have hv := mem_keys.1 hv
    rcases hfrom v hv with ⟨e', hok, -⟩ | ⟨⟨why, herr⟩, hcycle⟩
    · rw [hok] at hve; cases hve
    · rw [herr] at hve; cases hve
      exact .inr ⟨⟨why, rfl⟩, v, hv, hcycle⟩

end Owners

/-! ## The quotient -/

section Quotient

variable {o : ExtTreeMap Object Object}

/-- One of the edges is between two ultimate owners, and not an object's own ownership. -/
def Between (o : ExtTreeMap Object Object) (edges : List Edge) (a b : Object) : Prop :=
  ∃ e ∈ edges, o[e.from_]? = some a ∧ o[e.link.dependent]? = some b ∧ (a ≠ b ∨ e.link.binding.isOwnership = false)

/-- The quotient of the edges so far. -/
structure IsQuotient (o : ExtTreeMap Object Object) (done : List Edge) (q : Waiting) : Prop where
  kept : ∀ b : Object, b ∈ q.waits ↔ ∃ v : Object, o[v]? = some b
  waits : ∀ (b : Object) (deps : ExtTreeSet Object), q.waits[b]? = some deps → ∀ a, a ∈ deps ↔ Between o done a b
  users : ∀ a b : Object, b ∈ (q.users[a]?).getD ∅ ↔ Between o done a b

variable {done : List Edge} {edge : Edge} {q : Waiting}

theorem between_append {a b : Object} : Between o (done ++ [edge]) a b ↔ Between o done a b ∨
    o[edge.from_]? = some a ∧ o[edge.link.dependent]? = some b ∧ (a ≠ b ∨ edge.link.binding.isOwnership = false) := by
  simp only [Between, List.mem_append, List.mem_singleton, or_and_right, exists_or, exists_eq_left]

theorem isQuotient_start : IsQuotient o [] { waits := .ofList (o.toList.map fun e => (e.2, ∅)), users := ∅ } := by
  have hnone : ∀ a b, ¬ Between o [] a b := by
    rintro a b ⟨e, he, -⟩
    exact List.not_mem_nil he
  constructor
  case kept =>
    intro b
    rw [mem_ofList, List.map_map]
    rw [List.contains_iff_mem]
    exact mem_map_snd_toList
  case waits =>
    intro b deps h a
    have hmem := mem_of_getElem?_ofList h
    obtain ⟨c, -, hc⟩ := List.mem_map.1 hmem
    cases hc
    exact iff_of_false ExtTreeSet.not_mem_empty (hnone a _)
  case users =>
    intro a b
    rw [getElem?_empty, Option.getD_none]
    exact iff_of_false ExtTreeSet.not_mem_empty (hnone a b)

theorem addEdge_eq (h : IsQuotient o done q) (hfrom : ∃ a, o[edge.from_]? = some a) (hto : ∃ b, o[edge.link.dependent]? = some b) :
    ∃ q', addEdge o q edge = .ok q' ∧ IsQuotient o (done ++ [edge]) q' := by
  obtain ⟨a, ha⟩ := hfrom
  obtain ⟨b, hb⟩ := hto
  rw [addEdge, ha, hb]
  by_cases hc : a ≠ b ∨ edge.link.binding.isOwnership = false
  · obtain ⟨deps, hdeps⟩ := mem_iff_exists.1 ((h.kept b).2 ⟨_, hb⟩)
    simp only [if_pos hc, hdeps]
    have hnew : ∀ x y, Between o (done ++ [edge]) x y ↔ Between o done x y ∨ a = x ∧ b = y := by
      intro x y
      rw [between_append, ha, hb, Option.some.injEq, Option.some.injEq]
      refine or_congr_right ⟨fun h => ⟨h.1, h.2.1⟩, ?_⟩
      rintro ⟨rfl, rfl⟩
      exact ⟨rfl, rfl, hc⟩
    refine ⟨_, rfl, ?_⟩
    constructor
    case kept =>
      intro y
      rw [mem_insert, Std.compare_eq_iff_eq, ← h.kept]
      refine ⟨?_, .inr⟩
      rintro (rfl | hy)
      · exact (h.kept b).2 ⟨_, hb⟩
      · exact hy
    case waits =>
      intro y ds hy x
      rw [hnew]
      rcases getElem?_insert_eq_some.1 hy with ⟨rfl, rfl⟩ | ⟨hne, hy⟩
      · rw [ExtTreeSet.mem_insert, Std.compare_eq_iff_eq, h.waits _ _ hdeps, and_iff_left rfl, or_comm]
      · rw [h.waits _ _ hy]
        exact ⟨.inl, fun h => h.resolve_right fun h => hne h.2.symm⟩
    case users =>
      intro x y
      rw [hnew]
      by_cases hx : x = a
      · subst hx
        rw [show (q.users.insert x _)[x]? = some _ from getElem?_insert_self, Option.getD_some, ExtTreeSet.mem_insert,
          Std.compare_eq_iff_eq, h.users, and_iff_right rfl, or_comm]
      · rw [show (q.users.insert a _)[x]? = q.users[x]? from getElem?_insert_of_ne hx, h.users]
        exact ⟨.inl, fun h => h.resolve_right fun h => hx h.1.symm⟩
  · simp only [if_neg hc]
    have hsame : ∀ x y, Between o (done ++ [edge]) x y ↔ Between o done x y := by
      intro x y
      rw [between_append, ha, hb, Option.some.injEq, Option.some.injEq, or_iff_left]
      rintro ⟨rfl, rfl, h⟩
      exact hc h
    refine ⟨q, rfl, h.kept, fun y ds hy x => ?_, fun x y => ?_⟩
    · rw [hsame, h.waits y ds hy]
    · rw [hsame, h.users]

theorem waiting_eq {edges : ExtTreeSet Edge} (hends : ∀ e : Edge, e ∈ edges → (∃ a, o[e.from_]? = some a) ∧ ∃ b, o[e.link.dependent]? = some b) :
    ∃ q, waiting o edges = .ok q ∧ IsQuotient o edges.toList q := by
  have hrun : ∀ (todo done : List Edge) (q : Waiting), (∀ e ∈ todo, e ∈ edges) → IsQuotient o done q →
      ∃ q', todo.foldlM (addEdge o) q = .ok q' ∧ IsQuotient o (done ++ todo) q' := by
    intro todo
    induction todo with
    | nil => exact fun done q _ h => ⟨q, rfl, by rwa [List.append_nil]⟩
    | cons e todo ih =>
      intro done q hsub h
      obtain ⟨hfrom, hto⟩ := hends e (hsub e List.mem_cons_self)
      obtain ⟨q1, hq1, h1⟩ := addEdge_eq h hfrom hto
      obtain ⟨q', hq', h'⟩ := ih (done ++ [e]) q1 (fun e he => hsub e (List.mem_cons_of_mem _ he)) h1
      refine ⟨q', ?_, by simpa using h'⟩
      rw [List.foldlM_cons, hq1]
      exact hq'
  obtain ⟨q, hq, h⟩ := hrun edges.toList [] _ (fun e he => mem_toList.1 he) isQuotient_start
  exact ⟨q, hq, h⟩

theorem drained_eq {edges : List Edge} (h : IsQuotient o edges q) : ∃ left, q.drained = .ok left ∧
    (∀ v, v ∈ left → v ∈ q.waits) ∧ (left.isEmpty = true ↔ ∀ a, ¬ TransGen (Between o edges) a a) := by
  refine Drain.drain_spec h.waits h.users ?_ ?_ ?_ (by rw [length_keys])
  · rintro a b ⟨e, -, ha, hb, -⟩
    exact ⟨(h.kept a).2 ⟨_, ha⟩, (h.kept b).2 ⟨_, hb⟩⟩
  · rw [List.nodup_reverse]
    have hkeys : (q.waits.toList.map Prod.fst).Nodup := by
      rw [map_fst_toList_eq_keys]
      exact nodup_keys
    exact hkeys.sublist (List.filter_sublist.map _)
  · intro v
    rw [List.mem_reverse, List.mem_map]
    constructor
    · rintro ⟨⟨k, d⟩, hmem, rfl⟩
      obtain ⟨hmem, hempty⟩ := List.mem_filter.1 hmem
      exact ⟨d, getElem?_of_mem_toList hmem, hempty⟩
    · rintro ⟨d, hd, hempty⟩
      exact ⟨(v, d), List.mem_filter.2 ⟨mem_toList_iff_getElem?_eq_some.2 hd, hempty⟩, rfl⟩

end Quotient

/-! ## The closure -/

theorem start_cases (debug : Debug) (g : Graph) (root : Root) :
    (∃ start, g.start debug root = .ok start ∧ g.roots[root]? = some (.present start) ∧ g.Bound root) ∨
    ((∃ why, g.start debug root = .error (.refused why)) ∧ ¬ g.Bound root) := by
  have hbound : (∃ start, g.boundTo debug root = .ok start ∧ g.roots[root]? = some (.present start) ∧
        ∃ node, g.IsNode start node ∧ node.held = .root root) ∨
      ((∃ why, g.boundTo debug root = .error (.refused why)) ∧ ¬ g.Bound root) := by
    rw [Graph.boundTo]
    rcases Graph.require_get_cases g.roots root (debug.root root) with ⟨start, hstart, hok⟩ | ⟨hno, why, herr⟩
    · rcases @Graph.node_cases debug g start with ⟨node, hnode, hnok⟩ | ⟨hno, why, herr⟩
      · by_cases hheld : node.held = .root root
        · exact .inl ⟨start, by simp [bind, Except.bind, hok, hnok, hheld], hstart, node, hnode, hheld⟩
        · refine .inr ⟨⟨_, by simp only [bind, Except.bind, hok, hnok, ne_eq, hheld, not_false_eq_true, if_true]; rfl⟩, ?_⟩
          rintro ⟨-, start', node', hstart', hnode', hheld'⟩
          rw [hstart] at hstart'; cases hstart'
          obtain rfl := hnode.unique hnode'
          exact hheld hheld'
      · refine .inr ⟨⟨why, by simp only [bind, Except.bind, hok, herr]⟩, ?_⟩
        rintro ⟨-, start', node', hstart', hnode', -⟩
        rw [hstart] at hstart'; cases hstart'
        exact hno node' hnode'
    · refine .inr ⟨⟨why, by rw [herr]; rfl⟩, ?_⟩
      rintro ⟨-, start', -, hstart', -⟩
      exact hno start' hstart'
  have hroot : (∀ uid, root = .table uid → uid.kind = .table) → g.start debug root = g.boundTo debug root := by
    intro hkind
    cases root with
    | module id => rfl
    | table uid => rw [Graph.start, if_neg (not_not_intro (hkind uid rfl))]
  by_cases hkind : ∀ uid, root = .table uid → uid.kind = .table
  · rw [hroot hkind]
    rcases hbound with ⟨start, hok, hstart, node, hnode, hheld⟩ | h
    · exact .inl ⟨start, hok, hstart, hkind, start, node, hstart, hnode, hheld⟩
    · exact .inr h
  · push Not at hkind
    obtain ⟨uid, rfl, hkind⟩ := hkind
    exact .inr ⟨⟨_, if_pos hkind⟩, fun h => hkind (h.1 uid rfl)⟩

theorem blocked_eq {nodes : ExtTreeMap Object Node} {left : ExtTreeMap Object (ExtTreeSet Object)} (h : ∀ v, v ∈ left → v ∈ nodes) :
    ∃ why, blocked nodes left = .error (.refused why) := by
  rw [blocked]
  rcases mapM_cases (f := shown nodes) left.keys with ⟨m, hm⟩ | ⟨v, hv, e, hve, -⟩
  · exact ⟨_, by rw [hm]; rfl⟩
  · obtain ⟨n, hn⟩ := mem_iff_exists.1 (h v (mem_keys.1 hv))
    rw [shown, hn] at hve
    cases hve

/-- With sound evidence the closure is what the root leads to, every link that leaves it and the ends of the owner chains;
with other evidence it is refused. No lookup is in vain, and there is room enough. -/
theorem closure_exact (debug : Debug) (g : Graph) (root : Root) :
    match g.closure debug root with
    | .ok c => g.Sound root ∧ (∀ v node, c.nodes[v]? = some node ↔ g.Reachable root v ∧ g.nodes[v]? = some (.present node)) ∧
        (∀ v link, ⟨v, link⟩ ∈ c.edges ↔ g.Reachable root v ∧ g.Links v link) ∧
        ∀ v e, c.owners[v]? = some e ↔ g.Reachable root v ∧ Chain.Ends g.OwnedBy v e
    | .error e => ¬ g.Sound root ∧ ∃ why, e = .refused why := by
  rw [Graph.closure]
  rcases start_cases debug g root with ⟨start, hok, hstart, hbound⟩ | ⟨⟨why, herr⟩, hnot⟩
  case inr =>
    rw [herr]
    exact ⟨fun h => hnot h.bound, why, rfl⟩
  have hreach : ∀ v, g.Reachable root v ↔ ReflTransGen g.Leads start v := by
    intro v
    constructor
    · rintro ⟨start', hstart', hpath⟩
      rw [hstart] at hstart'; cases hstart'
      exact hpath
    · exact fun hpath => ⟨start, hstart, hpath⟩
  simp only [bind, Except.bind, hok]
  rcases @Graph.search_cases debug g start with ⟨out, hrun, htaken, hnodes⟩ | ⟨⟨why, herr⟩, v, hv, hbad⟩
  case inr =>
    rw [herr]
    refine ⟨fun h => hbad ⟨h.readable v ((hreach v).2 hv), fun link hlink key hkey => ?_⟩, why, rfl⟩
    exact h.keys v link key ((hreach v).2 hv) hlink hkey
  rw [hrun]
  have hmem : ∀ v, v ∈ out.nodes ↔ g.Reachable root v := fun v => (hnodes v).trans (hreach v).symm
  have hclosed : ∀ v w, v ∈ out.nodes → g.Leads v w → w ∈ out.nodes := fun v w hv hvw =>
    (hnodes w).2 (((hnodes v).1 hv).tail hvw)
  have hgood : ∀ v, g.Reachable root v → g.Good v := by
    intro v hv
    obtain ⟨n, hn⟩ := mem_iff_exists.1 ((hmem v).2 hv)
    exact (htaken.node v n hn).2
  simp only []
  rcases owners_cases (fun v n h => (htaken.node v n h).1) (fun v w hv hvw => hclosed v w hv (.inr hvw)) with
    ⟨o, ho, hends, howners⟩ | ⟨⟨why, herr⟩, v, hv, c, hc, hcycle⟩
  case inr =>
    rw [herr]
    refine ⟨fun h => h.owned c ?_ hcycle, why, rfl⟩
    exact (hreach c).2 (((hreach v).1 ((hmem v).1 hv)).trans (ReflTransGen.mono (fun _ _ => .inr) v c hc))
  rw [ho]
  have hedge : ∀ e : Edge, e ∈ out.edges ↔ g.Reachable root e.from_ ∧ g.Links e.from_ e.link := fun e => by
    rw [htaken.edges, hmem]
  have howner : ∀ v, v ∈ out.nodes → ∃ e, o[v]? = some e := by
    intro v hv
    obtain ⟨e, he⟩ := hends v hv
    exact ⟨e, (howners v e).2 ⟨hv, he⟩⟩
  have hlinked : ∀ e : Edge, e ∈ out.edges → e.from_ ∈ out.nodes ∧ e.link.dependent ∈ out.nodes := by
    intro e he
    obtain ⟨hfrom, hlinks⟩ := (htaken.edges e).1 he
    exact ⟨hfrom, hclosed _ _ hfrom (.inl ⟨e.link, hlinks, rfl⟩)⟩
  obtain ⟨q, hq, hquotient⟩ := @waiting_eq o out.edges fun e he =>
    ⟨howner _ (hlinked e he).1, howner _ (hlinked e he).2⟩
  obtain ⟨left, hleft, hsub, hempty⟩ := drained_eq hquotient
  simp only [hq, hleft]
  have hwaits : ∀ a b, Between o out.edges.toList a b ↔ g.Waits root a b := by
    intro a b
    constructor
    · rintro ⟨e, he, ha, hb, hc⟩
      obtain ⟨hfrom, hlinks⟩ := (hedge e).1 (mem_toList.1 he)
      exact ⟨e.from_, e.link, hfrom, hlinks, ((howners _ a).1 ha).2, ((howners _ b).1 hb).2, hc⟩
    · rintro ⟨u, link, hu, hlinks, ha, hb, hc⟩
      have he : (⟨u, link⟩ : Edge) ∈ out.edges := (hedge ⟨u, link⟩).2 ⟨hu, hlinks⟩
      obtain ⟨hfrom, hto⟩ := hlinked _ he
      exact ⟨⟨u, link⟩, mem_toList.2 he, (howners u a).2 ⟨hfrom, ha⟩, (howners _ b).2 ⟨hto, hb⟩, hc⟩
  have hacyclic : left.isEmpty = true ↔ ∀ a, ¬ TransGen (g.Waits root) a a := by
    rw [hempty, show Between o out.edges.toList = g.Waits root from funext fun a => funext fun b => propext (hwaits a b)]
  by_cases hdone : left.isEmpty = true
  · rw [if_pos hdone]
    refine ⟨⟨hbound, fun v hv => (hgood v hv).1, fun v link key hv hlink => (hgood v hv).2 link hlink key, ?_, hacyclic.1 hdone⟩,
      ?_, fun v link => hedge ⟨v, link⟩, fun v e => ?_⟩
    · intro v hv
      obtain ⟨e, he⟩ := hends v ((hmem v).2 hv)
      exact he.acyclic Graph.ownedBy_unique .refl
    · intro v node
      constructor
      · intro h
        exact ⟨(hmem v).1 (mem_of_getElem?_eq h), (htaken.node v node h).1⟩
      · rintro ⟨hv, hnode⟩
        obtain ⟨n, hn⟩ := mem_iff_exists.1 ((hmem v).2 hv)
        rwa [Graph.IsNode.unique hnode (htaken.node v n hn).1]
    · rw [howners v e, hmem]
  · rw [if_neg hdone]
    have hnodes : ∀ v, v ∈ left → v ∈ out.nodes := by
      intro v hv
      obtain ⟨u, hu⟩ := (hquotient.kept v).1 (hsub v hv)
      obtain ⟨hu, hend⟩ := (howners u v).1 hu
      exact (hnodes v).2 (((hnodes u).1 hu).trans (ReflTransGen.mono (fun _ _ => .inr) u v hend.1))
    obtain ⟨why, hwhy⟩ := blocked_eq hnodes
    rw [hwhy]
    exact ⟨fun h => hdone (hacyclic.2 h.acyclic), why, rfl⟩

end Pbps.Catalog
