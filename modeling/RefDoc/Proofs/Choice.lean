import RefDoc.Proofs.Grammar

namespace RefDoc.Pattern

variable {γ : Type} {p q : Pattern γ} {ps : List (Pattern γ)} {l m n r w : List Char}
  {ms ns : List (Mark γ × Place)} {f : Char → Bool}

/-- At the place between `l` and `m ++ r` the pattern takes `m` and passes `ms`, if what follows the
pattern can match behind `m`. -/
def Prefers (p : Pattern γ) (l m r : List Char) (ms : List (Mark γ × Place)) : Prop :=
  ∀ (k : Place → Option (Match γ)) (s : Match γ), k (.between (l ++ m) r) = some s →
    p.run k (.between l (m ++ r)) = some (s.behind ms)

theorem Prefers.anchor {a : Anchor} (h : a.Fits l r) :
    Prefers (.anchor a : Pattern γ) l [] r [] := by
  intro k s hk
  rw [List.append_nil] at hk
  simp only [run, List.nil_append, (a.holds_between l r).mpr h, ↓reduceIte, hk]
  rfl

theorem Prefers.char {c : Char} (h : f c = true) : Prefers (.char f : Pattern γ) l [c] r [] := by
  intro k s hk
  simp only [run, List.singleton_append, Place.between_after, List.head?_cons, Option.any_some, h,
    ↓reduceIte, Place.next?_cons, Option.bind_some, hk]
  rfl

theorem Prefers.mark {g : Mark γ} : Prefers (.mark g) l [] r [(g, .between l r)] := by
  intro k s hk
  rw [List.append_nil] at hk
  simp only [run, List.nil_append, hk, Option.map_some]
  rfl

theorem Prefers.seq (hp : Prefers p l m (n ++ r) ms) (hq : Prefers q (l ++ m) n r ns) :
    Prefers (.seq p q) l (m ++ n) r (ms ++ ns) := by
  intro k s hk
  rw [← List.append_assoc] at hk
  have h := hp _ _ (hq k s hk)
  simpa only [run, List.append_assoc, Match.behind] using h

theorem Prefers.left (h : Prefers p l m r ms) : Prefers (.alt p q) l m r ms := by
  intro k s hk
  simp only [run, h k s hk, Option.some_or]

theorem Prefers.right (hp : p.Rejects l (m ++ r)) (h : Prefers q l m r ms) :
    Prefers (.alt p q) l m r ms := by
  intro k s hk
  simp only [run, hp.run_eq_none, h k s hk, Option.none_or]

theorem Prefers.stop (h : p.Rejects l r) : Prefers (.many p) l [] r [] := by
  intro k s hk
  rw [List.append_nil] at hk
  simp only [run, List.nil_append]
  rw [rounds, h.run_eq_none, hk]
  rfl

theorem Prefers.round (hm : m ≠ []) (hp : Prefers p l m (n ++ r) ms)
    (h : Prefers (.many p) (l ++ m) n r ns) : Prefers (.many p) l (m ++ n) r (ms ++ ns) := by
  intro k s hk
  rw [← List.append_assoc] at hk
  have hlt : (n ++ r).length < (m ++ (n ++ r)).length := by
    have hpos := List.length_pos_iff.mpr hm
    simp only [List.length_append]
    omega
  have hrest := h k s hk
  rw [run] at hrest ⊢
  rw [List.append_assoc, rounds, hp _ (s.behind ns)]
  · simp only [Match.behind, List.append_assoc, Option.some_or]
  · simp only [Place.between_rest, hlt, ↓reduceDIte, hrest]

theorem run_foldl_seq (k : Place → Option (Match γ)) (x : Place) :
    (ps.foldl .seq q).run k x = q.run ((sequence ps).run k) x := by
  induction ps generalizing q x with
  | nil => rfl
  | cons p ps ih =>
    have hs : (sequence (p :: ps)).run k = p.run ((sequence ps).run k) := by
      funext y
      rw [sequence, List.foldl_cons, ih]
      rfl
    rw [List.foldl_cons, ih, hs]
    rfl

theorem Prefers.nil : Prefers (sequence [] : Pattern γ) l [] r [] := by
  intro k s hk
  rwa [List.append_nil] at hk

theorem Prefers.cons (hp : Prefers p l m (n ++ r) ms)
    (hps : Prefers (sequence ps) (l ++ m) n r ns) :
    Prefers (sequence (p :: ps)) l (m ++ n) r (ms ++ ns) := by
  intro k s hk
  have h := hp.seq hps k s hk
  rw [sequence, List.foldl_cons, run_foldl_seq]
  exact h

theorem Prefers.charList (cs : List Char) : Prefers (charList cs : Pattern γ) l cs r [] := by
  induction cs generalizing l with
  | nil => exact .nil
  | cons c cs ih =>
    have hc : Prefers (.char (· == c) : Pattern γ) l [c] (cs ++ r) [] := .char (beq_self_eq_true c)
    exact hc.cons ih

theorem Prefers.literal (s : String) : Prefers (literal s : Pattern γ) l s.toList r [] :=
  .charList s.toList

theorem Prefers.group {g : γ} (h : Prefers p l m r []) :
    Prefers (group g p) l m r (captured g l m r) := by
  intro k s hk
  have hclose : (Pattern.mark (.closing g)).run k (.between (l ++ m) r) =
      some (s.record (.closing g) (.between (l ++ m) r)) := by
    rw [run, hk, Option.map_some]
  change ((p.run ((Pattern.mark (.closing g)).run k) (.between l (m ++ r))).map _) = _
  rw [h _ _ hclose, Option.map_some]
  rfl

theorem Prefers.maybe (h : Prefers p l m r ms) : Prefers (maybe p) l m r ms :=
  h.left

theorem Prefers.maybe_nil (h : p.Rejects l r) : Prefers (Pattern.maybe p) l [] r [] := by
  apply Prefers.right h
  intro k s hk
  rwa [List.append_nil] at hk

theorem Prefers.many_char (hm : ∀ c ∈ m, f c = true) (hr : Text.Stops f r) :
    Prefers (.many (.char f) : Pattern γ) l m r [] := by
  induction m generalizing l with
  | nil => exact .stop (rejects_char hr)
  | cons c m ih =>
    obtain ⟨hc, hm⟩ := List.forall_mem_cons.mp hm
    have hchar : Prefers (.char f : Pattern γ) l [c] (m ++ r) [] := .char hc
    exact hchar.round (List.cons_ne_nil c []) (ih hm)

theorem Prefers.many1_char (hne : m ≠ []) (hm : ∀ c ∈ m, f c = true)
    (hr : Text.Stops f r) :
    Prefers (many1 (.char f) : Pattern γ) l m r [] := by
  cases m with
  | nil => exact absurd rfl hne
  | cons c m =>
    obtain ⟨hc, hm⟩ := List.forall_mem_cons.mp hm
    have hchar : Prefers (.char f : Pattern γ) l [c] (m ++ r) [] := .char hc
    exact hchar.seq (.many_char hm hr)

theorem rejects_char_nil (f : Char → Bool) (l : List Char) :
    (Pattern.char f : Pattern γ).Rejects l [] := by
  apply rejects_char
  intro c hc
  cases hc

theorem run_many_char_nil (f : Char → Bool) (k : Place → Option (Match γ)) (l : List Char) :
    (Pattern.many (.char f)).run k (.between l []) = k (.between l []) := by
  rw [run, rounds, (rejects_char_nil f l).run_eq_none, Option.none_or]

theorem run_manyLazy_char_nil (f : Char → Bool) (k : Place → Option (Match γ)) (l : List Char) :
    (Pattern.manyLazy (.char f)).run k (.between l []) = k (.between l []) := by
  rw [run, rounds, (rejects_char_nil f l).run_eq_none, Option.or_none]

theorem run_many_char_cons (k : Place → Option (Match γ)) (l r : List Char) (c : Char) :
    (Pattern.many (.char f)).run k (.between l (c :: r)) =
      (if f c then (Pattern.many (.char f)).run k (.between (l ++ [c]) r) else none).or
        (k (.between l (c :: r))) := by
  have hlt : r.length < (c :: r).length := Nat.lt_succ_self _
  rw [run, rounds]
  simp only [run, Place.between_after, List.head?_cons, Option.any_some, Place.next?_cons,
    Option.bind_some, Place.between_rest, hlt, ↓reduceDIte]

theorem run_manyLazy_char_cons (k : Place → Option (Match γ)) (l r : List Char) (c : Char) :
    (Pattern.manyLazy (.char f)).run k (.between l (c :: r)) =
      (k (.between l (c :: r))).or
        (if f c then (Pattern.manyLazy (.char f)).run k (.between (l ++ [c]) r) else none) := by
  have hlt : r.length < (c :: r).length := Nat.lt_succ_self _
  rw [run, rounds]
  simp only [run, Place.between_after, List.head?_cons, Option.any_some, Place.next?_cons,
    Option.bind_some, Place.between_rest, hlt, ↓reduceDIte]

/-- A run of characters gives back what it took too much: it ends at the last place where the rest
can match. -/
theorem Prefers.greedy (hm : ∀ c ∈ m, f c = true) (hp : Prefers (sequence ps) (l ++ m) n r ms)
    (h : ∀ a b, n ++ r = a ++ b → a ≠ [] → (∀ c ∈ a, f c = true) →
      (sequence ps).Rejects (l ++ m ++ a) b) :
    Prefers (sequence (.many (.char f) :: ps)) l (m ++ n) r ms := by
  intro k s hk
  rw [← List.append_assoc] at hk
  have hs := hp k s hk
  rw [sequence, List.foldl_cons, run_foldl_seq, List.append_assoc]
  change (Pattern.many (.char f)).run ((sequence ps).run k) (.between l (m ++ (n ++ r))) = _
  clear hk hp
  induction m generalizing l with
  | nil =>
    rw [List.append_nil] at hs
    rw [List.nil_append]
    cases hw : n ++ r with
    | nil =>
      rw [hw] at hs
      rw [run, rounds]
      exact hs
    | cons c w =>
      rw [hw] at hs
      rw [run_many_char_cons, hs]
      by_cases hc : f c = true
      · rw [if_pos hc]
        cases hs' : (Pattern.many (.char f)).run ((sequence ps).run k) (.between (l ++ [c]) w) with
        | none => rfl
        | some s' =>
          obtain ⟨a, b, as, s'', rfl, ha, hb, _⟩ := followsReading_of_run _ _ _ _ _ hs'
          have hr := h (c :: a) b hw (List.cons_ne_nil c a)
            (List.forall_mem_cons.mpr ⟨hc, (reads_many_char.mp ha).1⟩)
          rw [List.append_nil, ← List.singleton_append, ← List.append_assoc] at hr
          rw [hr.run_eq_none] at hb
          cases hb
      · rw [if_neg hc, Option.none_or]
  | cons c m ih =>
    obtain ⟨hc, hm⟩ := List.forall_mem_cons.mp hm
    rw [List.cons_append, run_many_char_cons, if_pos hc, ih hm, Option.some_or]
    · intro a b hw ha hf
      have hr := h a b hw ha hf
      rwa [← List.singleton_append, ← List.append_assoc] at hr
    · rwa [← List.singleton_append, ← List.append_assoc] at hs

/-- A lazy run of characters ends at the first place where the rest can match. -/
theorem Prefers.lazy (hm : ∀ c ∈ m, f c = true) (hp : Prefers (sequence ps) (l ++ m) n r ms)
    (h : ∀ a c b, m = a ++ c :: b → (sequence ps).Rejects (l ++ a) (c :: b ++ (n ++ r))) :
    Prefers (sequence (.manyLazy (.char f) :: ps)) l (m ++ n) r ms := by
  intro k s hk
  rw [← List.append_assoc] at hk
  have hs := hp k s hk
  rw [sequence, List.foldl_cons, run_foldl_seq, List.append_assoc]
  change (Pattern.manyLazy (.char f)).run ((sequence ps).run k) (.between l (m ++ (n ++ r))) = _
  clear hk hp
  induction m generalizing l with
  | nil =>
    rw [List.append_nil] at hs
    rw [List.nil_append, run, rounds, hs]
    rfl
  | cons c m ih =>
    obtain ⟨hc, hm⟩ := List.forall_mem_cons.mp hm
    have hr := h [] c m rfl
    rw [List.append_nil] at hr
    rw [List.cons_append, run_manyLazy_char_cons, if_pos hc, ← List.cons_append, hr.run_eq_none,
      Option.none_or, ih hm]
    · intro a d b hw
      have hr := h (c :: a) d b (by rw [hw, List.cons_append])
      rwa [← List.singleton_append, ← List.append_assoc] at hr
    · rwa [← List.singleton_append, ← List.append_assoc] at hs

theorem run_sequence_cons (k : Place → Option (Match γ)) (x : Place) :
    (sequence (p :: ps)).run k x = p.run ((sequence ps).run k) x := by
  rw [sequence, List.foldl_cons, run_foldl_seq]
  rfl

theorem Prefers.group_lazy {g : γ} (hm : ∀ c ∈ m, f c = true)
    (hp : Prefers (sequence ps) (l ++ m) n r ms)
    (h : ∀ a c b, m = a ++ c :: b → (sequence ps).Rejects (l ++ a) (c :: b ++ (n ++ r))) :
    Prefers (sequence (Pattern.group g (.manyLazy (.char f)) :: ps)) l (m ++ n) r
      (captured g l m (n ++ r) ++ ms) := by
  have hclose : Prefers (.mark (.closing g)) (l ++ m) [] (n ++ r)
      [(.closing g, .between (l ++ m) (n ++ r))] := .mark
  have hps : Prefers (sequence (.mark (.closing g) :: ps)) (l ++ m) n r
      ((.closing g, .between (l ++ m) (n ++ r)) :: ms) :=
    hclose.cons (by rwa [List.append_nil])
  have hlazy := Prefers.lazy hm hps fun a c b he => by
    apply Rejects.cons
    intro a' b' hw ha
    obtain ⟨_, ha⟩ := ha
    obtain ⟨rfl, _⟩ := reads_mark.mp ha
    rw [List.append_nil, ← show _ = b' from hw]
    exact h a c b he
  intro k s hk
  have hrun := hlazy k s hk
  rw [run_sequence_cons] at hrun ⊢
  have hopen : ((sequence (.mark (.closing g) :: ps)).run k) =
      (Pattern.mark (.closing g)).run ((sequence ps).run k) := by
    funext y
    exact run_sequence_cons k y
  rw [hopen] at hrun
  change ((Pattern.manyLazy (.char f)).run ((Pattern.mark (.closing g)).run ((sequence ps).run k))
    (.between l (m ++ n ++ r))).map _ = _
  rw [hrun, Option.map_some, List.append_assoc]
  rfl

theorem Prefers.foundAt? (h : Prefers p l m r ms) :
    p.foundAt? (.between l (m ++ r)) =
      some { start := .between l (m ++ r), stop := .between (l ++ m) r, marks := ms } := by
  rw [Pattern.foundAt?, h accept _ rfl]
  simp only [Option.map_some, Match.behind, List.append_nil]

end RefDoc.Pattern
