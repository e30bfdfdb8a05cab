import RefDoc.Proofs.Context

namespace RefDoc

/-- What an anchor asks of the texts on the two sides of a place. -/
def Anchor.Fits : Anchor → List Char → List Char → Prop
  | .lineStart, l, _ => l = [] ∨ l.getLast? = some '\n'
  | .wordEdge, l, r =>
    ¬((∃ c, l.getLast? = some c ∧ Text.isWord c = true) ↔
      ∃ c, r.head? = some c ∧ Text.isWord c = true)

theorem Anchor.holds_between (a : Anchor) (l r : List Char) :
    a.holds (.between l r) = true ↔ a.Fits l r := by
  cases a with
  | lineStart =>
    simp only [holds, Fits, Place.between_before]
    cases hl : l.getLast? with
    | none => simp [List.getLast?_eq_none_iff.mp hl]
    | some c =>
      have hne : l ≠ [] := by
        intro h
        subst l
        cases hl
      simp [hne]
  | wordEdge =>
    rw [holds, bne_iff_ne, ne_eq, Bool.eq_iff_iff, Option.any_eq_true, Option.any_eq_true]
    rfl

def Match.behind {γ : Type} (marks : List (Mark γ × Place)) (r : Match γ) : Match γ :=
  { r with marks := marks ++ r.marks }

namespace Pattern

variable {γ : Type} {p q : Pattern γ} {l m n r w : List Char} {ms ns : List (Mark γ × Place)}

/-- `Reads p l m r marks`: in the text `l ++ m ++ r` the pattern can be read off `m`, and the marks
passed on the way are `marks`. Preferences have no part in it. -/
inductive Reads : Pattern γ → List Char → List Char → List Char → List (Mark γ × Place) → Prop where
  | empty (l r : List Char) : Reads .empty l [] r []
  | char {f : Char → Bool} {c : Char} (l r : List Char) (h : f c = true) :
    Reads (.char f) l [c] r []
  | anchor {a : Anchor} {l r : List Char} (h : a.Fits l r) : Reads (.anchor a) l [] r []
  | mark (g : Mark γ) (l r : List Char) : Reads (.mark g) l [] r [(g, .between l r)]
  | seq {p q : Pattern γ} {l m n r : List Char} {ms ns : List (Mark γ × Place)}
    (hp : Reads p l m (n ++ r) ms) (hq : Reads q (l ++ m) n r ns) :
    Reads (.seq p q) l (m ++ n) r (ms ++ ns)
  | left {p : Pattern γ} {l m r : List Char} {ms : List (Mark γ × Place)} (q : Pattern γ)
    (h : Reads p l m r ms) : Reads (.alt p q) l m r ms
  | right {q : Pattern γ} {l m r : List Char} {ms : List (Mark γ × Place)} (p : Pattern γ)
    (h : Reads q l m r ms) : Reads (.alt p q) l m r ms
  | stop (p : Pattern γ) (l r : List Char) : Reads (.many p) l [] r []
  | round {p : Pattern γ} {l m n r : List Char} {ms ns : List (Mark γ × Place)}
    (hp : Reads p l m (n ++ r) ms) (h : Reads (.many p) (l ++ m) n r ns) :
    Reads (.many p) l (m ++ n) r (ms ++ ns)
  | manyLazy {p : Pattern γ} {l m r : List Char} {ms : List (Mark γ × Place)}
    (h : Reads (.many p) l m r ms) : Reads (.manyLazy p) l m r ms

/-- The language of a pattern: the texts `m` off which it can be read between `l` and `r`. -/
def Accepts (p : Pattern γ) (l m r : List Char) : Prop :=
  ∃ ms, Reads p l m r ms

theorem reads_empty : Reads .empty l m r ms ↔ m = [] ∧ ms = [] := by
  refine ⟨fun h => ?_, fun h => ?_⟩
  · cases h
    exact ⟨rfl, rfl⟩
  · obtain ⟨rfl, rfl⟩ := h
    exact .empty l r

theorem reads_char {f : Char → Bool} :
    Reads (.char f) l m r ms ↔ (∃ c, m = [c] ∧ f c = true) ∧ ms = [] := by
  refine ⟨fun h => ?_, fun h => ?_⟩
  · cases h with
    | char _ _ h => exact ⟨⟨_, rfl, h⟩, rfl⟩
  · obtain ⟨⟨c, rfl, h⟩, rfl⟩ := h
    exact .char l r h

theorem reads_anchor {a : Anchor} :
    Reads (.anchor a) l m r ms ↔ (m = [] ∧ a.Fits l r) ∧ ms = [] := by
  refine ⟨fun h => ?_, fun h => ?_⟩
  · cases h with
    | anchor h => exact ⟨⟨rfl, h⟩, rfl⟩
  · obtain ⟨⟨rfl, h⟩, rfl⟩ := h
    exact .anchor h

theorem reads_mark {g : Mark γ} :
    Reads (.mark g) l m r ms ↔ m = [] ∧ ms = [(g, .between l r)] := by
  refine ⟨fun h => ?_, fun h => ?_⟩
  · cases h
    exact ⟨rfl, rfl⟩
  · obtain ⟨rfl, rfl⟩ := h
    exact .mark g l r

theorem reads_seq :
    Reads (.seq p q) l w r ms ↔ ∃ m n ps qs, w = m ++ n ∧ ms = ps ++ qs ∧
      Reads p l m (n ++ r) ps ∧ Reads q (l ++ m) n r qs := by
  refine ⟨fun h => ?_, fun h => ?_⟩
  · cases h with
    | seq hp hq => exact ⟨_, _, _, _, rfl, rfl, hp, hq⟩
  · obtain ⟨m, n, ps, qs, rfl, rfl, hp, hq⟩ := h
    exact .seq hp hq

theorem reads_alt : Reads (.alt p q) l m r ms ↔ Reads p l m r ms ∨ Reads q l m r ms := by
  refine ⟨fun h => ?_, fun h => ?_⟩
  · cases h with
    | left _ h => exact .inl h
    | right _ h => exact .inr h
  · rcases h with h | h
    · exact .left q h
    · exact .right p h

theorem reads_many :
    Reads (.many p) l w r ms ↔ (w = [] ∧ ms = []) ∨ ∃ m n ps qs, w = m ++ n ∧ ms = ps ++ qs ∧
      Reads p l m (n ++ r) ps ∧ Reads (.many p) (l ++ m) n r qs := by
  refine ⟨fun h => ?_, fun h => ?_⟩
  · cases h with
    | stop => exact .inl ⟨rfl, rfl⟩
    | round hp h => exact .inr ⟨_, _, _, _, rfl, rfl, hp, h⟩
  · rcases h with ⟨rfl, rfl⟩ | ⟨m, n, ps, qs, rfl, rfl, hp, h⟩
    · exact .stop p l r
    · exact .round hp h

theorem reads_manyLazy : Reads (.manyLazy p) l m r ms ↔ Reads (.many p) l m r ms := by
  refine ⟨fun h => ?_, fun h => ?_⟩
  · cases h with
    | manyLazy h => exact h
  · exact .manyLazy h

/-- A successful match behind `l` read `p` off the front of `w` and went on with `k` from there. -/
def FollowsReading (p : Pattern γ) (k : Place → Option (Match γ)) (l w : List Char)
    (s : Match γ) : Prop :=
  ∃ m n ms s', w = m ++ n ∧ Reads p l m n ms ∧ k (.between (l ++ m) n) = some s' ∧
    s = s'.behind ms

theorem FollowsReading.nil {k : Place → Option (Match γ)} {s : Match γ} (hp : Reads p l [] w [])
    (hk : k (.between l w) = some s) : FollowsReading p k l w s :=
  ⟨[], w, [], s, rfl, hp, by rwa [List.append_nil], rfl⟩

theorem FollowsReading.bind {p₁ p₂ : Pattern γ} {k k' : Place → Option (Match γ)} {s : Match γ}
    (h : FollowsReading p k' l w s)
    (hk : ∀ m n s', w = m ++ n → k' (.between (l ++ m) n) = some s' →
      FollowsReading p₁ k (l ++ m) n s')
    (hp : ∀ {m n r ms ns}, Reads p l m (n ++ r) ms → Reads p₁ (l ++ m) n r ns →
      Reads p₂ l (m ++ n) r (ms ++ ns)) : FollowsReading p₂ k l w s := by
  obtain ⟨m, n, ms, s', rfl, hm, hs', rfl⟩ := h
  obtain ⟨m', n', ns, s'', rfl, hm', hs'', rfl⟩ := hk m n s' rfl hs'
  refine ⟨m ++ m', n', ms ++ ns, s'', ?_, hp hm hm', ?_, ?_⟩
  · rw [List.append_assoc]
  · rwa [← List.append_assoc]
  · simp only [Match.behind, List.append_assoc]

theorem FollowsReading.rounds {k : Place → Option (Match γ)} {s : Match γ}
    {choose : Option (Match γ) → Option (Match γ) → Option (Match γ)}
    (hc : ∀ a b s, choose a b = some s → a = some s ∨ b = some s)
    (hp : ∀ k l w s, p.run k (.between l w) = some s → FollowsReading p k l w s)
    (h : Pattern.rounds p.run choose k (.between l w) = some s) :
    FollowsReading (.many p) k l w s := by
  induction hn : w.length using Nat.strongRecOn generalizing l w s with
  | ind N ih =>
    subst hn
    rw [Pattern.rounds] at h
    rcases hc _ _ _ h with h | h
    · refine (hp _ _ _ _ h).bind ?_ .round
      intro m n s' hw hs'
      by_cases hlt : n.length < w.length
      · simp only [Place.between_rest, hlt, ↓reduceDIte] at hs'
        exact ih _ hlt hs' rfl
      · simp only [Place.between_rest, hlt, ↓reduceDIte] at hs'
        cases hs'
    · exact .nil (.stop p l w) h

/-- Whatever is matched can be read off the text. -/
theorem followsReading_of_run (p : Pattern γ) (k : Place → Option (Match γ)) (l w : List Char)
    (s : Match γ) (h : p.run k (.between l w) = some s) : FollowsReading p k l w s := by
  induction p generalizing k l w s with
  | empty => exact .nil (.empty l w) h
  | char f =>
    simp only [run] at h
    split at h
    · next hf =>
      cases w with
      | nil => cases hf
      | cons c w =>
        rw [Place.next?_cons, Option.bind_some] at h
        exact ⟨[c], w, [], s, rfl, .char l w hf, h, rfl⟩
    · cases h
  | anchor a =>
    simp only [run] at h
    split at h
    · next ha => exact .nil (.anchor ((a.holds_between l w).mp ha)) h
    · cases h
  | mark g =>
    simp only [run, Option.map_eq_some_iff] at h
    obtain ⟨s', hs', rfl⟩ := h
    exact ⟨[], w, [(g, .between l w)], s', rfl, .mark g l w, by rwa [List.append_nil], rfl⟩
  | seq p q ihp ihq =>
    refine (ihp _ _ _ _ h).bind ?_ .seq
    intro m n s' hw hs'
    exact ihq _ _ _ _ hs'
  | alt p q ihp ihq =>
    simp only [run, Option.or_eq_some_iff] at h
    rcases h with h | ⟨_, h⟩
    · obtain ⟨m, n, ms, s', hw, hm, hs⟩ := ihp _ _ _ _ h
      exact ⟨m, n, ms, s', hw, .left q hm, hs⟩
    · obtain ⟨m, n, ms, s', hw, hm, hs⟩ := ihq _ _ _ _ h
      exact ⟨m, n, ms, s', hw, .right p hm, hs⟩
  | many p ih =>
    refine FollowsReading.rounds ?_ ih h
    intro a b s hs
    rcases Option.or_eq_some_iff.mp hs with hs | ⟨_, hs⟩
    · exact .inl hs
    · exact .inr hs
  | manyLazy p ih =>
    have hr : FollowsReading (.many p) k l w s := by
      refine FollowsReading.rounds ?_ ih h
      intro a b s hs
      rcases Option.or_eq_some_iff.mp hs with hs | ⟨_, hs⟩
      · exact .inr hs
      · exact .inl hs
    obtain ⟨m, n, ms, s', hw, hm, hs⟩ := hr
    exact ⟨m, n, ms, s', hw, .manyLazy hm, hs⟩

theorem Reads.isSome_rounds {k : Place → Option (Match γ)}
    {choose : Option (Match γ) → Option (Match γ) → Option (Match γ)}
    (hc : ∀ a b, (choose a b).isSome = (a.isSome || b.isSome))
    (hp : ∀ {k l m r ms}, Reads p l m r ms → (k (.between (l ++ m) r)).isSome = true →
      (p.run k (.between l (m ++ r))).isSome = true)
    (h : Reads (.many p) l m r ms) (hk : (k (.between (l ++ m) r)).isSome = true) :
    (Pattern.rounds p.run choose k (.between l (m ++ r))).isSome = true := by
  generalize hq : Pattern.many p = q at h
  induction h with
  | stop p' l r =>
    rw [Pattern.rounds, hc, Bool.or_eq_true]
    rw [List.append_nil] at hk
    exact .inr hk
  | @round p' l m n r ms ns hm h _ ih =>
    cases hq
    rw [← List.append_assoc] at hk
    have hrest := ih hk rfl
    -- A round that takes no character is left out.
    cases m with
    | nil => rwa [List.append_nil] at hrest
    | cons c m =>
      rw [Pattern.rounds, hc, Bool.or_eq_true, List.append_assoc]
      refine .inl (hp hm ?_)
      have hlt : (n ++ r).length < (c :: m ++ (n ++ r)).length := by
        simp only [List.length_append, List.length_cons]
        omega
      simp only [Place.between_rest, hlt, ↓reduceDIte]
      exact hrest
  | _ => cases hq

/-- Whatever can be read off the text is matched, if what follows it is. -/
theorem Reads.isSome_run {k : Place → Option (Match γ)} (h : Reads p l m r ms)
    (hk : (k (.between (l ++ m) r)).isSome = true) :
    (p.run k (.between l (m ++ r))).isSome = true := by
  induction p generalizing k l m r ms with
  | empty =>
    obtain ⟨rfl, _⟩ := reads_empty.mp h
    rwa [List.append_nil] at hk
  | char f =>
    obtain ⟨⟨c, rfl, hf⟩, _⟩ := reads_char.mp h
    rw [List.singleton_append]
    simp only [run, Place.between_after, List.head?_cons, Option.any_some, hf, ↓reduceIte,
      Place.next?_cons, Option.bind_some]
    exact hk
  | anchor a =>
    obtain ⟨⟨rfl, ha⟩, _⟩ := reads_anchor.mp h
    rw [List.append_nil] at hk
    simp only [run, List.nil_append, (a.holds_between l r).mpr ha, ↓reduceIte]
    exact hk
  | mark g =>
    obtain ⟨rfl, _⟩ := reads_mark.mp h
    rw [List.append_nil] at hk
    simpa only [run, Option.isSome_map, List.nil_append] using hk
  | seq p q ihp ihq =>
    obtain ⟨m, n, ps, qs, rfl, _, hm, hn⟩ := reads_seq.mp h
    rw [← List.append_assoc] at hk
    rw [List.append_assoc]
    exact ihp hm (ihq hn hk)
  | alt p q ihp ihq =>
    simp only [run, Option.isSome_or, Bool.or_eq_true]
    rcases reads_alt.mp h with h | h
    · exact .inl (ihp h hk)
    · exact .inr (ihq h hk)
  | many p ih => exact h.isSome_rounds (fun a b => Option.isSome_or) ih hk
  | manyLazy p ih =>
    refine (reads_manyLazy.mp h).isSome_rounds ?_ ih hk
    intro a b
    rw [Option.isSome_or, Bool.or_comm]

/-- No text in front of which the place stands can be read as the pattern. -/
def Rejects (p : Pattern γ) (l w : List Char) : Prop :=
  ∀ m r, w = m ++ r → ¬p.Accepts l m r

theorem Rejects.run_eq_none (h : p.Rejects l w) (k : Place → Option (Match γ)) :
    p.run k (.between l w) = none := by
  cases hs : p.run k (.between l w) with
  | none => rfl
  | some s =>
    obtain ⟨m, n, ms, _, hw, hm, _⟩ := followsReading_of_run p k l w s hs
    exact absurd ⟨ms, hm⟩ (h m n hw)

theorem reads_of_foundAt? {f : Found γ} (h : p.foundAt? (.between l w) = some f) :
    ∃ m r, w = m ++ r ∧ Reads p l m r f.marks ∧ f.start = .between l w ∧
      f.stop = .between (l ++ m) r := by
  simp only [foundAt?, Option.map_eq_some_iff] at h
  obtain ⟨s, hs, rfl⟩ := h
  obtain ⟨m, r, ms, s', hw, hm, hs', rfl⟩ := followsReading_of_run p accept l w s hs
  cases hs'
  refine ⟨m, r, hw, ?_, rfl, rfl⟩
  simpa only [Match.behind, List.append_nil] using hm

/-- There is no match at a place exactly if the pattern rejects what stands there. -/
theorem foundAt?_eq_none_iff : p.foundAt? (.between l w) = none ↔ p.Rejects l w := by
  refine ⟨?_, fun h => by rw [foundAt?, h.run_eq_none, Option.map_none]⟩
  intro h m r hw ha
  obtain ⟨ms, hm⟩ := ha
  subst w
  have hs : (p.run accept (.between l (m ++ r))).isSome = true := hm.isSome_run rfl
  rw [foundAt?, Option.map_eq_none_iff] at h
  rw [h] at hs
  cases hs

end Pattern

end RefDoc
