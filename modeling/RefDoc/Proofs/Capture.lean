import RefDoc.Proofs.Choice
import RefDoc.Proofs.Search

namespace RefDoc.Pattern

variable {γ : Type} {p : Pattern γ} {ps qs : List (Pattern γ)} {g : γ}
  {l m n r w : List Char} {ms : List (Mark γ × Place)} {gs : List (γ × List Char)}

def Avoids (ms : List (Mark γ)) (g : γ) : Prop :=
  .opening g ∉ ms ∧ .closing g ∉ ms

theorem Reads.avoids (h : Reads p l m r ms) (hp : Avoids p.marks g) : Avoids (ms.map (·.1)) g := by
  have hm := h.mem_marks
  refine ⟨fun ho => ?_, fun hc => ?_⟩
  · obtain ⟨x, hx, he⟩ := List.mem_map.mp ho
    exact hp.1 (he ▸ hm x hx)
  · obtain ⟨x, hx, he⟩ := List.mem_map.mp hc
    exact hp.2 (he ▸ hm x hx)

/-- The marks of groups that follow one another, with their texts. -/
inductive Spells : List (Mark γ × Place) → List (γ × List Char) → Prop
  | nil : Spells [] []
  | cons (g : γ) (l m r : List Char) {ms : List (Mark γ × Place)} {gs : List (γ × List Char)} :
      Spells ms gs → Spells (captured g l m r ++ ms) ((g, m) :: gs)

theorem Spells.append {ns : List (Mark γ × Place)} {hs : List (γ × List Char)} (hm : Spells ms gs)
    (hn : Spells ns hs) : Spells (ms ++ ns) (gs ++ hs) := by
  induction hm with
  | nil => exact hn
  | cons g l m r _ ih =>
    rw [List.append_assoc]
    exact ih.cons g l m r

/-- At the place between `l` and `m ++ r` the pattern takes `m`, if what follows it can match behind
`m`, and leaves these texts in its groups. -/
def Takes (p : Pattern γ) (l m r : List Char) (gs : List (γ × List Char)) : Prop :=
  ∃ ms, Prefers p l m r ms ∧ Spells ms gs

theorem Prefers.takes (h : Prefers p l m r []) : Takes p l m r [] :=
  ⟨[], h, .nil⟩

theorem Takes.nil : Takes (sequence [] : Pattern γ) l [] r [] :=
  Prefers.nil.takes

theorem Takes.cons {hs : List (γ × List Char)} (hp : Takes p l m (n ++ r) gs)
    (hps : Takes (sequence ps) (l ++ m) n r hs) :
    Takes (sequence (p :: ps)) l (m ++ n) r (gs ++ hs) := by
  obtain ⟨ms, hp, hm⟩ := hp
  obtain ⟨ns, hps, hn⟩ := hps
  exact ⟨ms ++ ns, hp.cons hps, hm.append hn⟩

theorem Takes.skip (hp : Prefers p l m (n ++ r) []) (hps : Takes (sequence ps) (l ++ m) n r gs) :
    Takes (sequence (p :: ps)) l (m ++ n) r gs :=
  hp.takes.cons hps

theorem Takes.maybe (h : Takes p l m r gs) : Takes (maybe p) l m r gs := by
  obtain ⟨ms, h, hm⟩ := h
  exact ⟨ms, h.maybe, hm⟩

theorem takes_group (g : γ) (h : Prefers p l m r []) : Takes (group g p) l m r [(g, m)] := by
  have hs := Spells.nil.cons g l m r
  rw [List.append_nil] at hs
  exact ⟨_, h.group, hs⟩

theorem Takes.keep (hp : Prefers p l m (n ++ r) []) (hps : Takes (sequence ps) (l ++ m) n r gs) :
    Takes (sequence (group g p :: ps)) l (m ++ n) r ((g, m) :: gs) :=
  (takes_group g hp).cons hps

theorem Takes.keep_lazy {f : Char → Bool} (hm : ∀ c ∈ m, f c = true)
    (hps : Takes (sequence ps) (l ++ m) n r gs)
    (h : ∀ a c b, m = a ++ c :: b → (sequence ps).Rejects (l ++ a) (c :: b ++ (n ++ r))) :
    Takes (sequence (group g (.manyLazy (.char f)) :: ps)) l (m ++ n) r ((g, m) :: gs) := by
  obtain ⟨ms, hps, hg⟩ := hps
  exact ⟨_, .group_lazy hm hps h, hg.cons g l m (n ++ r)⟩

variable [DecidableEq γ]

theorem capture_nil (g : γ) : capture [] g = none := rfl

theorem capture_captured (g : γ) (l m r : List Char) (ms : List (Mark γ × Place)) :
    capture (captured g l m r ++ ms) g = some m := by
  have hne : (Mark.closing g == Mark.opening g) = false := by simp
  simp only [capture, captured, List.cons_append, List.lookup_cons_self, List.lookup_cons, hne]
  exact congrArg some (Place.textTo_between l m r)

theorem lookup_eq_none {k : Mark γ} (h : k ∉ ms.map (·.1)) : ms.lookup k = none := by
  rw [List.lookup_eq_none_iff]
  intro x hx
  rw [bne_iff_ne]
  intro he
  exact h (List.mem_map.mpr ⟨x, hx, he.symm⟩)

theorem capture_append (h : Avoids (ms.map (·.1)) g) (ns : List (Mark γ × Place)) :
    capture (ms ++ ns) g = capture ns g := by
  simp only [capture, List.lookup_append, lookup_eq_none h.1, lookup_eq_none h.2, Option.none_or]

theorem capture_append_of_some (h : capture ms g = some m) (ns : List (Mark γ × Place)) :
    capture (ms ++ ns) g = some m := by
  simp only [capture, Option.bind_eq_bind, Option.bind_eq_some_iff] at h
  obtain ⟨x, hx, y, hy, hm⟩ := h
  simp only [capture, List.lookup_append, hx, hy, Option.some_or, Option.bind_eq_bind,
    Option.bind_some]
  exact hm

theorem capture_eq_none (h : Avoids (ms.map (·.1)) g) : capture ms g = none := by
  have ha := capture_append h []
  rwa [List.append_nil, capture_nil] at ha

theorem capture_captured_ne {g' : γ} (h : g ≠ g') (l m r : List Char)
    (ms : List (Mark γ × Place)) : capture (captured g l m r ++ ms) g' = capture ms g' := by
  apply capture_append
  simp [Avoids, captured, h.symm]

theorem Reads.capture_group {i : Nat} (h : Reads (sequence ps) l w r ms)
    (hi : ps[i]? = some (group g p)) (hps : Avoids (sequence (ps.take i)).marks g)
    (hp : p.marks = []) : ∃ l' m r', Reads p l' m r' [] ∧ capture ms g = some m := by
  rw [← List.take_append_drop i ps, List.drop_eq_getElem?_toList_append, hi] at h
  obtain ⟨a, n, as, bs, rfl, rfl, ha, h⟩ := reads_sequence_append.mp h
  obtain ⟨m, b, cs, ds, rfl, rfl, hm, hb⟩ := reads_sequence_cons.mp h
  obtain ⟨hp', rfl⟩ := (reads_group hp).mp hm
  refine ⟨_, m, _, hp', ?_⟩
  rw [capture_append (ha.avoids hps), capture_captured]

theorem Reads.capture_maybe {i j : Nat} (h : Reads (sequence ps) l w r ms)
    (hi : ps[i]? = some (maybe (sequence qs))) (hj : qs[j]? = some (group g p))
    (hps : Avoids (sequence (ps.take i)).marks g)
    (hrest : Avoids (sequence (ps.drop (i + 1))).marks g)
    (hqs : Avoids (sequence (qs.take j)).marks g) (hp : p.marks = []) (hm : capture ms g = some m) :
    ∃ l' r', Reads p l' m r' [] := by
  rw [← List.take_append_drop i ps, List.drop_eq_getElem?_toList_append, hi] at h
  obtain ⟨a, n, as, bs, rfl, rfl, ha, h⟩ := reads_sequence_append.mp h
  obtain ⟨x, b, cs, ds, rfl, rfl, hx, hb⟩ := reads_sequence_cons.mp h
  rw [capture_append (ha.avoids hps)] at hm
  rcases reads_maybe.mp hx with hx | ⟨_, rfl⟩
  · obtain ⟨l', m', r', hm', hc⟩ := hx.capture_group hj hqs hp
    rw [capture_append_of_some hc, Option.some.injEq] at hm
    subst m'
    exact ⟨l', r', hm'⟩
  · rw [List.nil_append, capture_eq_none (hb.avoids hrest)] at hm
    cases hm

theorem Spells.capture_eq (h : Spells ms gs) (g : γ) : capture ms g = gs.lookup g := by
  induction h with
  | nil => rfl
  | cons g' l m r _ ih =>
    by_cases he : g = g'
    · subst g'
      rw [capture_captured, List.lookup_cons_self]
    · rw [capture_captured_ne (Ne.symm he), ih, List.lookup_cons, beq_eq_false_iff_ne.mpr he]

/-- What a pattern takes is found, with the texts in its groups. -/
theorem Takes.exists_findFrom (h : Takes p l m r gs) (hne : m ≠ []) :
    ∃ f, p.findFrom l (m ++ r) = f :: p.findFrom (l ++ m) r ∧ f.start = .between l (m ++ r) ∧
      f.stop = .between (l ++ m) r ∧ ∀ g, f.group? g = gs.lookup g := by
  obtain ⟨ms, hp, hm⟩ := h
  exact ⟨_, findFrom_of_foundAt? hp.foundAt? rfl hne, rfl, rfl, hm.capture_eq⟩

end RefDoc.Pattern
