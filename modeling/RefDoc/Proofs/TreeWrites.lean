import RefDoc.Proofs.TreeNodes

namespace RefDoc

namespace FileTree

variable {t u v : FileTree} {here place out : List String} {ss : List String}

/-- The bytes of the file at a place. -/
def file? (t : FileTree) (place : List String) : Option ByteArray :=
  match t.node? place with
  | some (.file bytes) => some bytes
  | _ => none

theorem file?_put_of_ne (t : FileTree) (n : Node) {other : List String} (h : other ≠ place) :
    (t.put place n).file? other = t.file? other := by
  rw [file?, file?, node?_put_of_ne t n h]

theorem follow_cons {s : String} : t.follow here (s :: ss) = .ok place ↔
    t.isDir here = true ∧ (t.node? (Path.step here s)).isSome ∧
      t.follow (Path.step here s) ss = .ok place := by
  rw [follow]
  cases t.isDir here with
  | false => simp
  | true => cases (t.node? (Path.step here s)).isSome <;> simp

theorem follow_append {as bs : List String} : t.follow here (as ++ bs) = .ok place ↔
    ∃ middle, t.follow here as = .ok middle ∧ t.follow middle bs = .ok place := by
  induction as generalizing here with
  | nil => simp [follow]
  | cons a as ih =>
    simp only [List.cons_append, follow_cons, ih]
    constructor
    · rintro ⟨hdir, hnode, middle, has, hbs⟩
      exact ⟨middle, ⟨hdir, hnode, has⟩, hbs⟩
    · rintro ⟨middle, ⟨hdir, hnode, has⟩, hbs⟩
      exact ⟨hdir, hnode, middle, has, hbs⟩

theorem isSome_of_isDir (h : t.isDir place = true) : (t.node? place).isSome := by
  rw [isDir_iff.1 h]
  rfl

theorem isDir_of_follow (h : t.follow here ss = .ok place) (hdir : t.isDir place = true) :
    t.isDir here = true := by
  cases ss with
  | nil =>
    cases h
    exact hdir
  | cons s ss => exact (follow_cons.1 h).1

theorem follow_of_filter (h : t.follow here (ss.filter (· != "")) = .ok place)
    (hdir : t.isDir place = true) : t.follow here ss = .ok place := by
  induction ss generalizing here with
  | nil => exact h
  | cons s ss ih =>
    by_cases hs : s = ""
    · subst hs
      rw [List.filter_cons_of_neg (by simp)] at h
      have hhere := isDir_of_follow h hdir
      exact follow_cons.2 ⟨hhere, isSome_of_isDir hhere, ih h⟩
    · rw [List.filter_cons_of_pos (by simpa using hs), follow_cons] at h
      obtain ⟨hhere, hnode, h⟩ := h
      exact follow_cons.2 ⟨hhere, hnode, ih h⟩

/-- Wherever a tree has a directory, another has one too, and wherever it has a node. -/
structure Extends (t u : FileTree) : Prop where
  workDir : u.workDir = t.workDir
  dir : ∀ {place}, t.isDir place = true → u.isDir place = true
  node : ∀ {place}, (t.node? place).isSome → (u.node? place).isSome

theorem Extends.base (h : Extends t u) (ss : List String) : u.base ss = t.base ss := by
  rw [FileTree.base, FileTree.base, h.workDir]

theorem Extends.follow (h : Extends t u) (hfollow : t.follow here ss = .ok place) :
    u.follow here ss = .ok place := by
  induction ss generalizing here with
  | nil => exact hfollow
  | cons s ss ih =>
    obtain ⟨hdir, hnode, hrest⟩ := follow_cons.1 hfollow
    exact follow_cons.2 ⟨h.dir hdir, h.node hnode, ih hrest⟩

structure Leads (t : FileTree) (here ss out : List String) : Prop where
  follow : t.follow here ss = .ok out
  dir : t.isDir out = true

theorem Leads.mono (h : Extends t u) (hout : t.Leads here ss out) : u.Leads here ss out :=
  ⟨h.follow hout.follow, h.dir hout.dir⟩

/-- The path with these segments is that of a directory. -/
def Reaches (t : FileTree) (ss out : List String) : Prop :=
  t.Leads (t.base ss) ss out

instance (t : FileTree) (ss out : List String) : Decidable (t.Reaches ss out) :=
  decidable_of_iff (t.follow (t.base ss) ss = .ok out ∧ t.isDir out = true)
    ⟨fun h => ⟨h.1, h.2⟩, fun h => ⟨h.follow, h.dir⟩⟩

theorem Reaches.mono (h : Extends t u) (hout : t.Reaches ss out) : u.Reaches ss out := by
  rw [Reaches, h.base]
  exact Leads.mono h hout

theorem Reaches.unique {out' : List String} (h : t.Reaches ss out) (h' : t.Reaches ss out') :
    out = out' :=
  Except.ok.inj (h.follow.symm.trans h'.follow)

/-- A tree that comes about by making directories where nothing was. -/
structure Made (t u : FileTree) : Prop where
  workDir : u.workDir = t.workDir
  node : ∀ {place n}, t.node? place = some n → u.node? place = some n
  file : ∀ place, u.file? place = t.file? place

theorem Made.refl (t : FileTree) : Made t t :=
  ⟨rfl, id, fun _ => rfl⟩

theorem Made.trans (htu : Made t u) (huv : Made u v) : Made t v :=
  ⟨huv.workDir.trans htu.workDir, fun h => huv.node (htu.node h),
    fun place => (huv.file place).trans (htu.file place)⟩

theorem Made.extends (h : Made t u) : Extends t u where
  workDir := h.workDir
  dir hdir := isDir_iff.2 (h.node (isDir_iff.1 hdir))
  node hsome := by
    obtain ⟨n, hn⟩ := Option.isSome_iff_exists.1 hsome
    rw [h.node hn]
    rfl

theorem made_put (hne : place ≠ []) (hnone : t.node? place = none) : Made t (t.put place .dir) where
  workDir := rfl
  node {other n} hn := by
    rw [node?_put_of_ne, hn]
    rintro rfl
    rw [hnone] at hn
    cases hn
  file other := by
    by_cases heq : other = place
    · rw [heq, file?, file?, node?_put_self t hne, hnone]
    · exact file?_put_of_ne t .dir heq

/-- What making a directory does if it succeeds. -/
theorem makeDir_eq_ok (h : t.makeDir here ss = .ok u) : ∃ above name parent,
    ss.filter (· != "") = above ++ [name] ∧ name ≠ "" ∧ name ≠ "." ∧ name ≠ ".." ∧
    t.Leads here above parent ∧ t.node? (parent ++ [name]) = none ∧
    u = t.put (parent ++ [name]) .dir := by
  rw [makeDir] at h
  cases hfollow : t.follow here (ss.filter (· != "")).dropLast with
  | error e =>
    rw [hfollow] at h
    cases h
  | ok parent =>
    simp only [hfollow, bind, Except.bind] at h
    split at h
    · cases h
    next hdir =>
    split at h
    · cases h
    · cases h
    · cases h
    next name hdot hup hlast =>
    split at h
    · cases h
    next hnone =>
    have hnames := List.dropLast_append_getLast? name hlast
    have hmem : name ∈ ss.filter (· != "") := List.mem_of_getLast? hlast
    refine ⟨(ss.filter (· != "")).dropLast, name, parent, hnames.symm, ?_, ?_, ?_,
      ⟨hfollow, by simpa using hdir⟩, by simpa using hnone, (Except.ok.inj h).symm⟩
    · simpa using (List.mem_filter.1 hmem).2
    · rintro rfl
      exact hdot rfl
    · rintro rfl
      exact hup rfl

theorem makeDir_spec (h : t.makeDir here ss = .ok u) : Made t u ∧ ∃ out, u.Leads here ss out := by
  obtain ⟨above, name, parent, hnames, hempty, hdot, hup, hparent, hnone, rfl⟩ := makeDir_eq_ok h
  have hne : parent ++ [name] ≠ [] := by simp
  have hmade := made_put hne hnone
  have hdir : (t.put (parent ++ [name]) .dir).isDir (parent ++ [name]) = true :=
    isDir_iff.2 (node?_put_self t hne .dir)
  have hup' := hparent.mono hmade.extends
  have hlast : (t.put (parent ++ [name]) .dir).follow parent [name] = .ok (parent ++ [name]) := by
    rw [follow_cons, Path.step_name hempty hdot hup]
    exact ⟨hup'.dir, isSome_of_isDir hdir, rfl⟩
  refine ⟨hmade, parent ++ [name], follow_of_filter ?_ hdir, hdir⟩
  rw [hnames]
  exact follow_append.2 ⟨parent, hup'.follow, hlast⟩

theorem ensureDir_spec (h : t.ensureDir here ss = .ok u) :
    Made t u ∧ ∃ out, u.Leads here ss out := by
  rw [ensureDir] at h
  split at h
  · split at h
    · next hany =>
      cases h
      cases hfollow : t.follow here ss with
      | error e =>
        rw [hfollow] at hany
        cases hany
      | ok out =>
        rw [hfollow] at hany
        exact ⟨.refl t, out, hfollow, hany⟩
    · cases h
  · exact makeDir_spec h

theorem ensureDirs_spec {ds : List (List String)} (h : t.ensureDirs here ds = .ok u) :
    Made t u ∧ ∀ d ∈ ds.head?, ∃ out, u.Leads here d out := by
  induction ds generalizing u with
  | nil =>
    cases h
    exact ⟨.refl t, nofun⟩
  | cons d above ih =>
    rw [ensureDirs] at h
    have hhead : ∀ {t}, ensureDir t here d = .ok u →
        ∀ d' ∈ (d :: above).head?, ∃ out, u.Leads here d' out := by
      intro t hd d' hd'
      cases hd'
      exact (ensureDir_spec hd).2
    split at h
    · cases habove : t.ensureDirs here above with
      | error e =>
        rw [habove] at h
        cases h
      | ok t' =>
        rw [habove] at h
        exact ⟨(ih habove).1.trans (ensureDir_spec h).1, hhead h⟩
    · exact ⟨(ensureDir_spec h).1, hhead h⟩

theorem createDir_spec {dir : String} (h : t.createDir dir = .ok u) :
    Made t u ∧ ∃ out, u.Reaches (Path.segments dir) out := by
  obtain ⟨hmade, hhead⟩ := ensureDirs_spec h
  obtain ⟨out, hout⟩ := hhead _ rfl
  rw [← hmade.extends.base] at hout
  exact ⟨hmade, out, hout⟩

theorem Reaches.exists_segments {dir file : String} (h : t.Reaches (Path.segments dir) out)
    (hfile : '/' ∉ file.toList) :
    ∃ ss, Path.segments (Path.join dir file) = ss ++ [file] ∧
      t.Leads (t.base (Path.segments (Path.join dir file))) ss out := by
  obtain ⟨ss, hjoin, hdir⟩ := Path.segments_join dir hfile
  have hbase : t.base (Path.segments (Path.join dir file)) = t.base (Path.segments dir) := by
    rw [base, base, Path.isAbsolute_join dir hfile]
  obtain ⟨hfollow, hout⟩ := h
  refine ⟨ss, hjoin, ?_, hout⟩
  rw [hbase]
  rcases hdir with hdir | hdir
  · rwa [← hdir]
  · nth_rewrite 2 [hdir] at hfollow
    obtain ⟨middle, hss, hend⟩ := follow_append.1 hfollow
    obtain ⟨_, _, hstay⟩ := follow_cons.1 hend
    cases hstay
    exact hss

theorem Reaches.resolve_join {dir file : String} (h : t.Reaches (Path.segments dir) out)
    (hfile : Path.IsOrdinary file) (hsome : (t.node? (out ++ [file])).isSome) :
    t.resolve (Path.join dir file) = .ok (out ++ [file]) := by
  obtain ⟨hempty, hdot, hup, hslash⟩ := hfile
  obtain ⟨ss, hjoin, hss⟩ := h.exists_segments hslash
  have hne : ¬(Path.join dir file).isEmpty = true := by
    intro he
    have hsegments : Path.segments "" = [""] := rfl
    rw [String.isEmpty_iff.1 he, hsegments] at hjoin
    have hlast := congrArg List.getLast? hjoin
    rw [List.getLast?_concat] at hlast
    exact hempty (Option.some.inj hlast).symm
  have hlast : t.follow out [file] = .ok (out ++ [file]) := by
    rw [follow_cons, Path.step_name hempty hdot hup]
    exact ⟨hss.dir, hsome, rfl⟩
  rw [resolve, if_neg hne]
  nth_rewrite 2 [hjoin]
  exact follow_append.2 ⟨out, hss.follow, hlast⟩

/-- Writing a file into a directory fails only if a directory is in its place. -/
theorem Reaches.write_join {dir file : String} (h : t.Reaches (Path.segments dir) out)
    (hfile : Path.IsOrdinary file) (text : String) :
    t.write (Path.join dir file) text =
      if t.isDir (out ++ [file]) then .error .isDirectory
      else .ok (t.put (out ++ [file]) (.file text.toUTF8)) := by
  obtain ⟨hempty, hdot, hup, hslash⟩ := hfile
  obtain ⟨ss, hjoin, hfollow, hdir⟩ := h.exists_segments hslash
  rw [hjoin] at hfollow
  rw [write, hjoin, List.dropLast_concat, List.getLast?_concat, hfollow]
  simp only [bind, Except.bind, hdir]
  rfl

theorem fromUTF8?_toUTF8 (text : String) : String.fromUTF8? text.toUTF8 = some text := by
  have hvalid : text.toUTF8.IsValidUTF8 := text.isValidUTF8
  rw [String.fromUTF8?, dif_pos hvalid]
  rfl

theorem Reaches.read_join {dir file text : String} (h : t.Reaches (Path.segments dir) out)
    (hfile : Path.IsOrdinary file)
    (hnode : t.node? (out ++ [file]) = some (.file text.toUTF8)) :
    t.read (Path.join dir file) = .ok text := by
  have hplace := h.resolve_join hfile (by rw [hnode]; rfl)
  rw [read, hplace]
  simp only [bind, Except.bind, hnode, fromUTF8?_toUTF8]

theorem extends_put {n : Node} (hne : place ≠ []) (hdir : ¬t.isDir place = true) :
    Extends t (t.put place n) where
  workDir := rfl
  dir {other} hother := by
    have h : other ≠ place := by
      rintro rfl
      exact hdir hother
    rw [isDir_iff, node?_put_of_ne t n h]
    exact isDir_iff.1 hother
  node {other} hother := by
    by_cases h : other = place
    · rw [h, node?_put_self t hne]
      rfl
    · rwa [node?_put_of_ne t n h]

end FileTree

end RefDoc
