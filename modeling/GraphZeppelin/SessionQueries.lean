import GraphZeppelin.Session

/-!
# The other queries at any point of a session

What the queries a session leaves out answer on the state it reaches.

`point_query(a, b)` answers whether its two nodes are connected in the
present graph, from the eager forest on the fast path and from Boruvka's on
the slow one (`session_pointQuery_correct`). It is the query after it that
the reset of the forest breaks (`pointQuery_resets_dsu`).

The fast path of `connected_components` is an optimisation of the slow one:
at any point of a session, the components a query returns are those that
flushing and running Boruvka find, up to their order
(`session_fast_path_agrees`).

The final query `connected_components(false)` merges the supernodes in place
and leaves updates locked. When it returns, the forest it leaves is trusted
and spans the present graph, so every `point_query` after it answers from
that forest, and answers right (`session_final_query_answers`).

A session whose query ended the process has no later query; on the state it
left, each of these queries would run Boruvka again and report the exit
(`Ended`), so none answers wrong.
-/

namespace GraphZeppelin

open ParentForest Connectivity GraphZeppelin.Graph

/-! ## The answer of a forest -/

section SameRoot

variable {σ : Type} {E : Finset (ℕ × ℕ)} {g : Graph σ}

/-- **The answer of a spanning forest is right**: `get_parent(a) ==
get_parent(b)` holds exactly when `a` and `b` are connected. -/
theorem sameRoot_iff (hF : SpanningForestOf E g.numNodes g.parent g.spanningForest) {a b : ℕ}
    (ha : a < g.numNodes) (hb : b < g.numNodes) :
    (g.sameRoot a b).2 = true ↔ Connected E a b := by
  obtain ⟨hra, hrb, -, -⟩ := getParent_pair hF.forest.isForest ha hb
  simp only [sameRoot, decide_eq_true_eq]
  rw [hra, hrb]
  exact hF.root_eq_iff ha hb

end SameRoot

/-! ## After the process ended -/

namespace Ended

variable {σ : Type} {ops : SketchOps σ} {conf : SupernodeConfig} {g : Graph σ}

/-- Boruvka after a flush of the state an exit left reports the exit. -/
theorem boruvkaEmulation_flush (h : Ended g) (batches : List (ℕ × List ℕ)) {makeCopy : Bool}
    {r : Graph σ × Except Exception (List (Finset ℕ))}
    (hr : boruvkaEmulation ops conf makeCopy (forceFlushPauseWorkers ops conf batches g) = some r) :
    r.2 = .error .exitFailure :=
  boruvkaEmulation_of_exited conf ((exited_forceFlushPauseWorkers _ _ _ _).trans h.exited) hr

/-- `connected_components` on the state an exit left takes the slow path
and reports the exit. -/
theorem connectedComponents (h : Ended g) {batches : List (ℕ × List ℕ)} {cont : Bool}
    {r : Graph σ × Except Exception (List (Finset ℕ))}
    (hr : Graph.connectedComponents ops conf batches cont g = some r) :
    r.2 = .error .exitFailure := by
  unfold Graph.connectedComponents at hr
  rw [if_neg (by simp [h.untrusted])] at hr
  split at hr
  · -- a continuing query resumes ingestion and rethrows
    obtain ⟨r', hr', rfl⟩ := Option.map_eq_some_iff.mp hr
    have he := h.boruvkaEmulation_flush batches hr'
    exact he
  · exact h.boruvkaEmulation_flush batches hr

/-- `point_query` on the state an exit left takes the slow path and reports
the exit. -/
theorem pointQuery (h : Ended g) {batches : List (ℕ × List ℕ)} {a b : ℕ}
    {r : Graph σ × Except Exception Bool} (hr : Graph.pointQuery ops conf batches a b g = some r) :
    r.2 = .error .exitFailure := by
  unfold Graph.pointQuery at hr
  rw [if_neg (by simp [h.untrusted])] at hr
  obtain ⟨r', hr', rfl⟩ := Option.map_eq_some_iff.mp hr
  simp only [h.boruvkaEmulation_flush batches hr']

end Ended

/-! ## `point_query` in a session -/

section PointQuery

variable {conf : SupernodeConfig} {oracle : UInt64 → Finset UInt64 → UInt64 × SampleSketchRet}
  {n : ℕ} {past : List GraphUpdate} {g : Graph VecSketch}

/-- **`point_query` answers right** from any state of a session, on either
path. -/
theorem SessionInv.pointQuery (hsound : OracleSound oracle) (h : SessionInv conf n past g)
    {batches : List (ℕ × List ℕ)} (hb : (expandBatches batches).Perm g.gutters) {a b : ℕ}
    (ha : a < n) (hb' : b < n) {q : Graph VecSketch × Except Exception Bool}
    (hq : Graph.pointQuery (VecSketch.ops oracle) conf batches a b g = some q) {x : Bool}
    (hx : q.2 = .ok x) : x = true ↔ Connected (presentEdges past) a b := by
  unfold Graph.pointQuery at hq
  split at hq
  · -- the fast path answers from the eager forest
    rename_i hvalid
    obtain rfl := Option.some.inj hq
    obtain rfl := Except.ok.inj hx
    have hF : SpanningForestOf (presentEdges past) g.numNodes g.parent g.spanningForest := by
      rw [h.numNodes]
      exact h.eager hvalid
    exact sameRoot_iff hF (h.numNodes ▸ ha) (h.numNodes ▸ hb')
  · -- the slow path answers from Boruvka's forest, before resetting it
    obtain ⟨⟨g', res⟩, hrun, rfl⟩ := Option.map_eq_some_iff.mp hq
    cases res with
    | error e => cases hx
    | ok cc =>
      obtain ⟨-, hF⟩ := h.flush_correct hsound hb hrun rfl
      have hn : g'.numNodes = n := by
        have hkept := boruvkaEmulation_kept conf hrun
        rw [(kept_eq_iff.mp hkept).1]
        exact (numNodes_forceFlushPauseWorkers _ _ _ _).trans h.numNodes
      rw [← hn] at hF ha hb'
      obtain rfl := Except.ok.inj hx
      exact sameRoot_iff hF ha hb'

/-- **After any session, `point_query` answers right**: whether two nodes
below `n` are connected by the edges present, from the eager forest or from
Boruvka's, when the flush is handed the pending pairs. -/
theorem session_pointQuery_correct (hsound : OracleSound oracle) (conf : SupernodeConfig)
    (failFactor : UInt64) (n : ℕ) (seed : UInt64) (config : GraphConfiguration)
    {os : List (Op × List (ℕ × List ℕ))} (hos : ∀ p ∈ os, SessionOp n p.1)
    (hhand : HandsOver (VecSketch.ops oracle) conf failFactor os
      (init (VecSketch.ops oracle) conf n seed config)) :
    ∀ r ∈ run (VecSketch.ops oracle) conf failFactor os
        (init (VecSketch.ops oracle) conf n seed config),
      ∀ batches, (expandBatches batches).Perm r.1.gutters → ∀ a < n, ∀ b < n,
        ∀ q ∈ Graph.pointQuery (VecSketch.ops oracle) conf batches a b r.1, ∀ x, q.2 = .ok x →
          (x = true ↔ Connected (presentEdges (updatesOf (os.map Prod.fst))) a b) := by
  intro r hr batches hb a ha b hb' q hq x hx
  rcases (((SessionInv.init conf n seed config).run hsound failFactor hos hhand).2 r hr).2
    with h | h
  · exact h.pointQuery hsound hb ha hb' hq hx
  · -- after an exit the query reports it again
    rw [h.pointQuery hq] at hx
    cases hx

/-- After the session of the edge (0, 1) inserted and deleted, nothing is
pending and `point_query(0, 1)` answers that 0 and 1 are not connected. -/
theorem session_pointQuery_correct_toggle :
    (∀ p ∈ [(Op.update ⟨⟨0, 1⟩, .insert⟩, []), (.connectedComponents true, [(0, [1]), (1, [0])]),
          (.update ⟨⟨0, 1⟩, .delete⟩, []),
          (.connectedComponents true, [(0, [1, 1]), (1, [0, 0])])], SessionOp 3 p.1) ∧
      HandsOver (VecSketch.ops minOracle) ⟨2, 3⟩ 4 [(Op.update ⟨⟨0, 1⟩, .insert⟩, []), (.connectedComponents true, [(0, [1]), (1, [0])]),
          (.update ⟨⟨0, 1⟩, .delete⟩, []),
          (.connectedComponents true, [(0, [1, 1]), (1, [0, 0])])]
        (init (VecSketch.ops minOracle) ⟨2, 3⟩ 3 0 {}) ∧
      ∀ r ∈ run (VecSketch.ops minOracle) ⟨2, 3⟩ 4 [(Op.update ⟨⟨0, 1⟩, .insert⟩, []), (.connectedComponents true, [(0, [1]), (1, [0])]),
          (.update ⟨⟨0, 1⟩, .delete⟩, []),
          (.connectedComponents true, [(0, [1, 1]), (1, [0, 0])])]
          (init (VecSketch.ops minOracle) ⟨2, 3⟩ 3 0 {}),
        ∀ batches, (expandBatches batches).Perm r.1.gutters → ∀ a < 3, ∀ b < 3,
          ∀ q ∈ Graph.pointQuery (VecSketch.ops minOracle) ⟨2, 3⟩ batches a b r.1, ∀ x,
            q.2 = .ok x → (x = true ↔ Connected (presentEdges (updatesOf (List.map Prod.fst [(Op.update ⟨⟨0, 1⟩, .insert⟩, []), (.connectedComponents true, [(0, [1]), (1, [0])]),
          (.update ⟨⟨0, 1⟩, .delete⟩, []),
          (.connectedComponents true, [(0, [1, 1]), (1, [0, 0])])]))) a b) :=
  ⟨by decide, by decide,
    session_pointQuery_correct minOracle_sound ⟨2, 3⟩ 4 3 0 {} (by decide) (by decide)⟩

end PointQuery

/-! ## The fast path and the plain one -/

section FastPath

variable {oracle : UInt64 → Finset UInt64 → UInt64 × SampleSketchRet}

/-- **The fast path agrees with the plain one**: at any point of a session,
the components `connected_components(true)` returns, from the eager forest
or through Boruvka, are those that flushing and running Boruvka find, up to
their order. -/
theorem session_fast_path_agrees (hsound : OracleSound oracle) (conf : SupernodeConfig)
    (failFactor : UInt64) (n : ℕ) (seed : UInt64) (config : GraphConfiguration)
    {os : List (Op × List (ℕ × List ℕ))} (hos : ∀ p ∈ os, SessionOp n p.1)
    (hhand : HandsOver (VecSketch.ops oracle) conf failFactor os
      (init (VecSketch.ops oracle) conf n seed config)) :
    ∀ r ∈ run (VecSketch.ops oracle) conf failFactor os
        (init (VecSketch.ops oracle) conf n seed config),
      ∀ batches, (expandBatches batches).Perm r.1.gutters →
        ∀ q ∈ Graph.connectedComponents (VecSketch.ops oracle) conf batches true r.1,
        ∀ s ∈ boruvkaEmulation (VecSketch.ops oracle) conf true
          (forceFlushPauseWorkers (VecSketch.ops oracle) conf batches r.1),
        ∀ cc cc', q.2 = .ok cc → s.2 = .ok cc' → cc.Perm cc' := by
  intro r hr batches hb q hq s hs cc cc' hcc hcc'
  rcases (((SessionInv.init conf n seed config).run hsound failFactor hos hhand).2 r hr).2
    with h | h
  · -- both answers list the components of the present edges
    exact ((h.connectedComponents hsound hb hq).1 cc hcc).perm (h.flush_correct hsound hb hs hcc').1
  · rw [h.connectedComponents hq] at hcc
    cases hcc

/-- After the edge (0, 1) is inserted, the query takes the fast path, and
Boruvka after the flush would find the same components. -/
theorem session_fast_path_agrees_insert :
    (∀ p ∈ [(Op.update ⟨⟨0, 1⟩, .insert⟩, ([] : List (ℕ × List ℕ)))], SessionOp 3 p.1) ∧
      HandsOver (VecSketch.ops minOracle) ⟨2, 3⟩ 4 [(Op.update ⟨⟨0, 1⟩, .insert⟩, [])]
        (init (VecSketch.ops minOracle) ⟨2, 3⟩ 3 0 {}) ∧
      ∀ r ∈ run (VecSketch.ops minOracle) ⟨2, 3⟩ 4 [(Op.update ⟨⟨0, 1⟩, .insert⟩, [])]
          (init (VecSketch.ops minOracle) ⟨2, 3⟩ 3 0 {}),
        ∀ batches, (expandBatches batches).Perm r.1.gutters →
          ∀ q ∈ Graph.connectedComponents (VecSketch.ops minOracle) ⟨2, 3⟩ batches true r.1,
          ∀ s ∈ boruvkaEmulation (VecSketch.ops minOracle) ⟨2, 3⟩ true
            (forceFlushPauseWorkers (VecSketch.ops minOracle) ⟨2, 3⟩ batches r.1),
          ∀ cc cc', q.2 = .ok cc → s.2 = .ok cc' → cc.Perm cc' :=
  ⟨by decide, by decide,
    session_fast_path_agrees minOracle_sound ⟨2, 3⟩ 4 3 0 {} (by decide) (by decide)⟩

end FastPath

/-! ## The final query -/

section FinalQuery

variable {oracle : UInt64 → Finset UInt64 → UInt64 × SampleSketchRet}

/-- **The final query answers right, and so does every `point_query` after
it**: when `connected_components(false)` returns after a session, it lists
the components of the present edges, and the forest it leaves is trusted
and spans them, so every later `point_query` answers from it whether its two
nodes are connected. -/
theorem session_final_query_answers (hsound : OracleSound oracle) (conf : SupernodeConfig)
    (failFactor : UInt64) (n : ℕ) (seed : UInt64) (config : GraphConfiguration)
    {os : List (Op × List (ℕ × List ℕ))} (hos : ∀ p ∈ os, SessionOp n p.1)
    (hhand : HandsOver (VecSketch.ops oracle) conf failFactor os
      (init (VecSketch.ops oracle) conf n seed config)) :
    ∀ r ∈ run (VecSketch.ops oracle) conf failFactor os
        (init (VecSketch.ops oracle) conf n seed config),
      ∀ batches, (expandBatches batches).Perm r.1.gutters →
        ∀ q ∈ Graph.connectedComponents (VecSketch.ops oracle) conf batches false r.1, ∀ cc,
          q.2 = .ok cc →
            IsComponents (presentEdges (updatesOf (os.map Prod.fst))) (Finset.range n) cc ∧
            ∀ batches', ∀ a < n, ∀ b < n, ∃ x,
              (Graph.pointQuery (VecSketch.ops oracle) conf batches' a b q.1).map Prod.snd
                = some (.ok x) ∧
              (x = true ↔ Connected (presentEdges (updatesOf (os.map Prod.fst))) a b) := by
  intro r hr batches hb q hq cc hcc
  obtain h | h := (((SessionInv.init conf n seed config).run hsound failFactor hos hhand).2 r hr).2
  swap
  · rw [h.connectedComponents hq] at hcc
    cases hcc
  -- the final query takes the slow path and merges in place
  simp only [Graph.connectedComponents, Bool.and_false, Bool.false_and, Bool.false_eq_true,
    if_false] at hq
  obtain ⟨hcomp, hF⟩ := h.flush_correct hsound hb hq hcc
  -- the run locks updates, keeps the nodes and trusts the forest it returns
  obtain ⟨hnum, -, -, -, -, hdsu, -, -⟩ := kept_eq_iff.mp (boruvkaEmulation_kept conf hq)
  have hn : q.1.numNodes = n := hnum.trans ((numNodes_forceFlushPauseWorkers _ _ _ _).trans h.numNodes)
  have hvalid : q.1.dsuValid = true := by
    rw [hdsu, hcc]
    rfl
  refine ⟨hcomp, fun batches' a ha b hb' => ⟨(q.1.sameRoot a b).2, ?_, ?_⟩⟩
  · rw [pointQuery_of_dsuValid _ _ hvalid]
    rfl
  · rw [← hn] at hF ha hb'
    exact sameRoot_iff hF ha hb'

/-- The final query after the edge (0, 1) is inserted. -/
theorem session_final_query_answers_insert :
    (∀ p ∈ [(Op.update ⟨⟨0, 1⟩, .insert⟩, ([] : List (ℕ × List ℕ)))], SessionOp 3 p.1) ∧
      HandsOver (VecSketch.ops minOracle) ⟨2, 3⟩ 4 [(Op.update ⟨⟨0, 1⟩, .insert⟩, [])]
        (init (VecSketch.ops minOracle) ⟨2, 3⟩ 3 0 {}) ∧
      ∀ r ∈ run (VecSketch.ops minOracle) ⟨2, 3⟩ 4 [(Op.update ⟨⟨0, 1⟩, .insert⟩, [])]
          (init (VecSketch.ops minOracle) ⟨2, 3⟩ 3 0 {}),
        ∀ batches, (expandBatches batches).Perm r.1.gutters →
          ∀ q ∈ Graph.connectedComponents (VecSketch.ops minOracle) ⟨2, 3⟩ batches false r.1, ∀ cc,
            q.2 = .ok cc →
              IsComponents (presentEdges (updatesOf (List.map Prod.fst
                [(Op.update ⟨⟨0, 1⟩, .insert⟩, ([] : List (ℕ × List ℕ)))]))) (Finset.range 3) cc ∧
              ∀ batches', ∀ a < 3, ∀ b < 3, ∃ x,
                (Graph.pointQuery (VecSketch.ops minOracle) ⟨2, 3⟩ batches' a b q.1).map Prod.snd
                  = some (.ok x) ∧
                (x = true ↔ Connected (presentEdges (updatesOf (List.map Prod.fst
                  [(Op.update ⟨⟨0, 1⟩, .insert⟩, ([] : List (ℕ × List ℕ)))]))) a b) :=
  ⟨by decide, by decide,
    session_final_query_answers minOracle_sound ⟨2, 3⟩ 4 3 0 {} (by decide) (by decide)⟩

end FinalQuery

end GraphZeppelin
