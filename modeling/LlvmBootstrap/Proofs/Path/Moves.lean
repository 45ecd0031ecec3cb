import LlvmBootstrap.Path.Normal
import LlvmBootstrap.Tree.Resolve

/-!
What a path asks a walk to do. A path below another one asks first for what the upper one asks,
and then for its own names; the names that are left of an archive path by `normalize?` are
plain ones, so joining them to a path adds exactly them.
-/

namespace LlvmBootstrap.Path

/-! ### Pieces -/

/-- A name that stands for an entry of a directory and for nothing else. -/
structure IsPlain (n : Name) : Prop where
  ne_nil : n ≠ []
  not_slash : slash ∉ n
  ne_dot : n ≠ dot
  ne_dotDot : n ≠ dotDot

theorem pieces_ne_nil (bs : Bytes) : pieces bs ≠ [] := by
  cases bs with
  | nil => simp [pieces]
  | cons b bs =>
      simp only [pieces]
      split
      · simp
      · split <;> simp

theorem pieces_cons_slash (bs : Bytes) : pieces (slash :: bs) = [] :: pieces bs := by
  have hne := pieces_ne_nil bs
  cases hp : pieces bs with
  | nil => contradiction
  | cons p ps => simp [pieces, hp]

theorem pieces_cons_of_ne {b : UInt8} {bs : Bytes} (h : b ≠ slash) :
    pieces (b :: bs) = (b :: (pieces bs).headD []) :: (pieces bs).tail := by
  have hne := pieces_ne_nil bs
  cases hp : pieces bs with
  | nil => contradiction
  | cons p ps => simp [pieces, hp, h]

theorem pieces_of_not_mem {n : Bytes} (h : slash ∉ n) : pieces n = [n] := by
  induction n with
  | nil => rfl
  | cons b n ih =>
      rw [List.mem_cons, not_or] at h
      rw [pieces_cons_of_ne (Ne.symm h.1), ih h.2]
      rfl

theorem pieces_append_slash (a b : Bytes) :
    pieces (a ++ slash :: b) = pieces a ++ pieces b := by
  induction a with
  | nil => simpa [pieces] using pieces_cons_slash b
  | cons c a ih =>
      rw [List.cons_append]
      by_cases hc : c = slash
      · rw [hc, pieces_cons_slash, pieces_cons_slash, ih, List.cons_append]
      · rw [pieces_cons_of_ne hc, pieces_cons_of_ne hc, ih]
        cases hp : pieces a with
        | nil => exact absurd hp (pieces_ne_nil a)
        | cons p ps => rfl

theorem not_slash_of_mem_pieces {bs : Bytes} {n : Name} (h : n ∈ pieces bs) : slash ∉ n := by
  induction bs generalizing n with
  | nil =>
      rw [pieces, List.mem_singleton] at h
      simp [h]
  | cons b bs ih =>
      by_cases hb : b = slash
      · rw [hb, pieces_cons_slash, List.mem_cons] at h
        rcases h with rfl | h
        · simp
        · exact ih h
      · rw [pieces_cons_of_ne hb] at h
        cases hp : pieces bs with
        | nil => exact absurd hp (pieces_ne_nil bs)
        | cons p ps =>
            rw [hp] at h ih
            rcases List.mem_cons.mp h with rfl | h
            · rw [List.mem_cons, not_or]
              exact ⟨Ne.symm hb, ih (List.mem_cons_self ..)⟩
            · exact ih (List.mem_cons_of_mem _ h)

theorem pieces_ofNames {ns : List Name} (hne : ns ≠ []) (hs : ∀ n ∈ ns, slash ∉ n) :
    pieces (ofNames ns).bytes = ns := by
  induction ns with
  | nil => contradiction
  | cons n ns ih =>
      cases ns with
      | nil => simpa [ofNames, List.intercalate] using pieces_of_not_mem (hs n (by simp))
      | cons m ns =>
          have hrest := ih (by simp) fun x hx => hs x (List.mem_cons_of_mem _ hx)
          simp only [ofNames] at hrest ⊢
          rw [List.intercalate_cons_cons, List.append_assoc, List.singleton_append,
            pieces_append_slash, pieces_of_not_mem (hs n (by simp)), hrest,
            List.singleton_append]

theorem component?_of_isPlain {n : Name} (h : IsPlain n) : component? n = some (.name n) := by
  simp [component?, h.ne_nil, h.ne_dot, h.ne_dotDot]

theorem eq_of_component?_eq_name {n m : Name} (h : component? n = some (.name m)) :
    m = n ∧ n ≠ [] ∧ n ≠ dot ∧ n ≠ dotDot := by
  unfold component? at h
  split at h
  · simp at h
  · split at h
    · simp at h
    · simp_all

theorem component?_ne_root (n : Name) : component? n ≠ some .root := by
  unfold component?
  split
  · simp
  · split <;> simp

theorem component?_ne_here (n : Name) : component? n ≠ some .here := by
  unfold component?
  split
  · simp
  · split <;> simp

theorem isPlain_of_component? {n m : Name} (h : component? n = some (.name m))
    (hs : slash ∉ n) : IsPlain m := by
  obtain ⟨rfl, hnil, hdot, hdots⟩ := eq_of_component?_eq_name h
  exact ⟨hnil, hs, hdot, hdots⟩

/-! ### Moves -/

/-- The steps a path asks for, without the one that a separator at its end stands for. -/
def moves (p : Path) : List Component := (pieces p.bytes).filterMap component?

theorem steps_eq_moves_or (p : Path) :
    Tree.steps p = p.moves ∨ Tree.steps p = p.moves ++ [.here] := by
  unfold Tree.steps
  split
  · exact .inr rfl
  · exact .inl (List.append_nil _)

theorem filterMap_component?_of_isPlain {ns : List Name} (h : ∀ n ∈ ns, IsPlain n) :
    ns.filterMap component? = ns.map .name := by
  induction ns with
  | nil => rfl
  | cons n ns ih =>
      rw [List.filterMap_cons, component?_of_isPlain (h n (by simp)), List.map_cons,
        ih fun x hx => h x (List.mem_cons_of_mem _ hx)]

theorem root_not_mem_moves (p : Path) : Component.root ∉ p.moves := by
  intro h
  obtain ⟨n, _, hn⟩ := List.mem_filterMap.mp h
  exact component?_ne_root n hn

theorem root_not_mem_steps (p : Path) : Component.root ∉ Tree.steps p := by
  rcases steps_eq_moves_or p with h | h
  · rw [h]
    exact root_not_mem_moves p
  · rw [h, List.mem_append, not_or]
    exact ⟨root_not_mem_moves p, by simp⟩

/-- A path whose last piece is a plain name asks for nothing behind it. -/
theorem steps_eq_moves {p : Path} {n : Name} (hlast : (pieces p.bytes).getLast? = some n)
    (hn : IsPlain n) : Tree.steps p = p.moves := by
  have hslash : p.bytes.getLast? ≠ some slash := by
    intro h
    obtain ⟨a, ha⟩ := List.getLast?_eq_some_iff.mp h
    rw [ha, pieces_append_slash, pieces, List.getLast?_concat] at hlast
    exact hn.ne_nil (Option.some.inj hlast).symm
  have hdot : (pieces p.bytes).getLast? ≠ some dot := by
    rw [hlast]
    exact fun h => hn.ne_dot (Option.some.inj h)
  rw [Tree.steps, if_neg (not_or.mpr ⟨hslash, hdot⟩), List.append_nil, moves]

theorem ofNames_not_isAbsolute {ns : List Name} (hp : ∀ n ∈ ns, n ≠ [] ∧ slash ∉ n) :
    (ofNames ns).isAbsolute = false := by
  cases ns with
  | nil => rfl
  | cons n ns =>
      obtain ⟨hn, hs⟩ := hp n (by simp)
      obtain ⟨b, n, rfl⟩ := List.exists_cons_of_ne_nil hn
      rw [List.mem_cons, not_or] at hs
      cases ns <;> simp [isAbsolute, ofNames, List.intercalate, Ne.symm hs.1]

theorem ofNames_singleton (n : Name) : ofNames [n] = ⟨n⟩ := by
  simp [ofNames, List.intercalate]

theorem isAbsolute_ofNames {ns : List Name} (h : ∀ n ∈ ns, IsPlain n) :
    (ofNames ns).isAbsolute = false :=
  ofNames_not_isAbsolute fun n hn => ⟨(h n hn).ne_nil, (h n hn).not_slash⟩

theorem isAbsolute_name {n : Name} (hn : IsPlain n) : (⟨n⟩ : Path).isAbsolute = false := by
  rw [← ofNames_singleton]
  exact isAbsolute_ofNames (by simpa using hn)

/-! ### Joining -/

theorem bytes_join_of_not_isAbsolute (p : Path) {q : Path} (h : q.isAbsolute = false) :
    (p / q).bytes = p.bytes ++ q.bytes ∧ (p.bytes = [] ∨ p.bytes.getLast? = some slash) ∨
      (p / q).bytes = p.bytes ++ slash :: q.bytes ∧ p.bytes ≠ [] := by
  change (p.join q).bytes = _ ∧ _ ∨ (p.join q).bytes = _ ∧ _
  unfold join
  rw [h, if_neg Bool.false_ne_true]
  by_cases hp : p.bytes = [] ∨ p.bytes.getLast? = some slash
  · exact .inl ⟨by rw [if_pos hp], hp⟩
  · exact .inr ⟨by rw [if_neg hp], (not_or.mp hp).1⟩

/-- What a path puts in front of all that is seen from it. -/
theorem exists_bytes_join (p : Path) :
    ∃ lead, ∀ q : Path, q.isAbsolute = false → (p / q).bytes = lead ++ q.bytes := by
  by_cases hp : p.bytes = [] ∨ p.bytes.getLast? = some slash
  · refine ⟨p.bytes, fun q hq => ?_⟩
    change (p.join q).bytes = _
    rw [join, hq, if_neg Bool.false_ne_true, if_pos hp]
  · refine ⟨p.bytes ++ [slash], fun q hq => ?_⟩
    change (p.join q).bytes = _
    rw [join, hq, if_neg Bool.false_ne_true, if_neg hp, List.append_assoc,
      List.singleton_append]

/-- Two steps down from a path are one. -/
theorem join_join (p : Path) {q r : Path} (hq : q.isAbsolute = false)
    (hr : r.isAbsolute = false) (hne : q.bytes ≠ []) (hlast : q.bytes.getLast? ≠ some slash) :
    p / q / r = p / (⟨q.bytes ++ slash :: r.bytes⟩ : Path) := by
  obtain ⟨lead, hlead⟩ := p.exists_bytes_join
  have habs : (⟨q.bytes ++ slash :: r.bytes⟩ : Path).isAbsolute = false := by
    obtain ⟨b, bs, hb⟩ := List.exists_cons_of_ne_nil hne
    rw [isAbsolute, hb] at hq ⊢
    exact hq
  have hopen : ¬((p / q).bytes = [] ∨ (p / q).bytes.getLast? = some slash) := by
    rw [List.getLast?_eq_some_getLast hne] at hlast
    rw [hlead q hq, List.getLast?_append, List.getLast?_eq_some_getLast hne]
    simp [hne, hlast]
  have hbelow : (p / q / r).bytes = (p / q).bytes ++ slash :: r.bytes := by
    change ((p / q).join r).bytes = _
    rw [join, hr, if_neg Bool.false_ne_true, if_neg hopen]
  have hbytes : (p / q / r).bytes = (p / (⟨q.bytes ++ slash :: r.bytes⟩ : Path)).bytes := by
    rw [hbelow, hlead q hq, hlead _ habs, List.append_assoc]
  exact congrArg Path.mk hbytes

/-- The pieces of a path below another one, up to the empty piece that a separator at the end
of the upper one makes. -/
theorem pieces_join {p q : Path} (hp : p.bytes ≠ []) (hq : q.isAbsolute = false) :
    ∃ ps, ps ≠ [] ∧ (pieces p.bytes = ps ∨ pieces p.bytes = ps ++ [[]]) ∧
      pieces (p / q).bytes = ps ++ pieces q.bytes := by
  rcases bytes_join_of_not_isAbsolute p hq with ⟨hb, hnil | hlast⟩ | ⟨hb, -⟩
  · exact absurd hnil hp
  · obtain ⟨a, ha⟩ := List.getLast?_eq_some_iff.mp hlast
    refine ⟨pieces a, pieces_ne_nil a, .inr ?_, ?_⟩
    · rw [ha, pieces_append_slash, pieces]
    · rw [hb, ha, List.append_assoc, List.singleton_append, pieces_append_slash]
  · exact ⟨_, pieces_ne_nil _, .inl rfl, by rw [hb, pieces_append_slash]⟩

theorem moves_join (p : Path) {q : Path} (hq : q.isAbsolute = false) :
    (p / q).moves = p.moves ++ q.moves := by
  by_cases hp : p.bytes = []
  · rcases bytes_join_of_not_isAbsolute p hq with ⟨hb, -⟩ | ⟨-, hne⟩
    · rw [hp, List.nil_append] at hb
      simp [moves, hb, hp, pieces, component?]
    · contradiction
  · obtain ⟨ps, -, hps, hj⟩ := pieces_join hp hq
    have hmoves : p.moves = ps.filterMap component? := by
      rcases hps with h | h <;> simp [moves, h, component?]
    rw [moves, hj, List.filterMap_append, hmoves, moves]

theorem isAbsolute_join (p : Path) {q : Path} (hq : q.isAbsolute = false) :
    (p / q).isAbsolute = p.isAbsolute := by
  rcases bytes_join_of_not_isAbsolute p hq with ⟨hb, hp⟩ | ⟨hb, hp⟩
  · rcases hp with hp | hp
    · rw [hp, List.nil_append] at hb
      simpa [isAbsolute, hb, hp] using hq
    · have hne : p.bytes ≠ [] := by
        rintro h
        simp [h] at hp
      obtain ⟨b, bs, hbs⟩ := List.exists_cons_of_ne_nil hne
      simp [isAbsolute, hb, hbs]
  · obtain ⟨b, bs, hbs⟩ := List.exists_cons_of_ne_nil hp
    simp [isAbsolute, hb, hbs]

theorem getLast?_pieces_join (p : Path) {q : Path} (hq : q.isAbsolute = false) :
    (pieces (p / q).bytes).getLast? = (pieces q.bytes).getLast? := by
  by_cases hp : p.bytes = []
  · rcases bytes_join_of_not_isAbsolute p hq with ⟨h, -⟩ | ⟨-, h⟩
    · rw [h, hp, List.nil_append]
    · contradiction
  · obtain ⟨ps, -, -, h⟩ := pieces_join hp hq
    rw [h, List.getLast?_append, List.getLast?_eq_some_getLast (pieces_ne_nil _),
      Option.some_or]

/-- Names joined to a path are the last steps of the whole, and nothing comes behind them. -/
theorem steps_join_ofNames (p : Path) {ns : List Name} (hne : ns ≠ [])
    (hp : ∀ n ∈ ns, IsPlain n) : Tree.steps (p / ofNames ns) = p.moves ++ ns.map .name := by
  have habs := isAbsolute_ofNames hp
  have hpieces := pieces_ofNames hne fun n hn => (hp n hn).not_slash
  have hlast : (pieces (p / ofNames ns).bytes).getLast? = some (ns.getLast hne) := by
    rw [getLast?_pieces_join p habs, hpieces, List.getLast?_eq_some_getLast hne]
  rw [steps_eq_moves hlast (hp _ (List.getLast_mem hne)), moves_join p habs, moves,
    moves, hpieces, filterMap_component?_of_isPlain hp]

theorem join_ofNames_ne_nil (p : Path) {ns : List Name} (hne : ns ≠ [])
    (hp : ∀ n ∈ ns, IsPlain n) : (p / ofNames ns).bytes ≠ [] := by
  intro h
  have hsteps := steps_join_ofNames p hne hp
  rw [Tree.steps, h] at hsteps
  have hlen := congrArg List.length hsteps
  simp only [pieces, component?, dot, List.filterMap, List.getLast?] at hlen
  simp at hlen
  exact hne (List.length_eq_zero_iff.mp (by omega))

/-- `q` asks for what `p` asks for and then for the names `ns`. -/
structure Extends (p : Path) (ns : List Name) (q : Path) : Prop where
  moves_eq : q.moves = p.moves ++ ns.map .name
  isAbsolute_eq : q.isAbsolute = p.isAbsolute
  /-- There is nothing behind the last name, and something before the end. -/
  last : ns ≠ [] → Tree.steps q = q.moves ∧ q.bytes ≠ []

theorem Extends.refl (p : Path) : Extends p [] p :=
  ⟨by simp, rfl, fun h => absurd rfl h⟩

theorem extends_ofNames (p : Path) {ns : List Name} (hp : ∀ n ∈ ns, IsPlain n) :
    Extends p ns (p / ofNames ns) := by
  have habs := isAbsolute_ofNames hp
  have hmoves : (p / ofNames ns).moves = p.moves ++ ns.map .name := by
    rw [moves_join p habs]
    by_cases hne : ns = []
    · subst hne
      rfl
    · rw [moves, moves, pieces_ofNames hne fun n hn => (hp n hn).not_slash,
        filterMap_component?_of_isPlain hp]
  refine ⟨hmoves, isAbsolute_join p habs, fun hne => ⟨?_, join_ofNames_ne_nil p hne hp⟩⟩
  rw [steps_join_ofNames p hne hp, hmoves]

theorem join_ne_nil {p q : Path} (hp : p.bytes ≠ []) (hq : q.isAbsolute = false) :
    (p / q).bytes ≠ [] := by
  rcases bytes_join_of_not_isAbsolute p hq with ⟨hb, -⟩ | ⟨hb, -⟩
  · rw [hb]
    exact List.append_ne_nil_of_left_ne_nil hp _
  · rw [hb]
    exact List.append_ne_nil_of_left_ne_nil hp _

/-- No names behind a path leave a separator at its end. -/
theorem steps_join_nil {p : Path} (hp : p.bytes ≠ []) :
    Tree.steps (p / ofNames []) = (p / ofNames []).moves ++ [.here] := by
  have hlast : (p / ofNames []).bytes.getLast? = some slash := by
    have hjoin := bytes_join_of_not_isAbsolute p (rfl : (ofNames []).isAbsolute = false)
    rcases hjoin with ⟨hb, hnil | hlast⟩ | ⟨hb, -⟩
    · exact absurd hnil hp
    · rw [hb]
      simpa [ofNames, List.intercalate] using hlast
    · rw [hb]
      simp [ofNames, List.intercalate]
  rw [Tree.steps, if_pos (.inl hlast), moves]

theorem Extends.concat {p q : Path} {ns : List Name} {n : Name} (h : Extends p ns q)
    (hn : IsPlain n) : Extends p (ns ++ [n]) (q / (⟨n⟩ : Path)) := by
  have hone : Extends q [n] (q / ofNames [n]) := extends_ofNames q (by simpa using hn)
  rw [ofNames_singleton] at hone
  refine ⟨?_, hone.isAbsolute_eq.trans h.isAbsolute_eq, fun _ => hone.last (by simp)⟩
  rw [hone.moves_eq, h.moves_eq, List.append_assoc, List.map_append]

/-! ### Components -/

/-- The components that a walk moves by: not the root and not a leading `.`. -/
def isMove : Component → Bool
  | .up | .name _ => true
  | .root | .here => false

def IsProper : Component → Prop
  | .name n => IsPlain n
  | .root | .here | .up => True

theorem isMove_of_component? {n : Name} {c : Component} (h : component? n = some c) :
    isMove c = true := by
  cases c with
  | root => exact absurd h (component?_ne_root n)
  | here => exact absurd h (component?_ne_here n)
  | up => rfl
  | name m => rfl

theorem filter_isMove_filterMap (ps : List Name) :
    (ps.filterMap component?).filter isMove = ps.filterMap component? := by
  rw [List.filter_eq_self]
  intro c hc
  obtain ⟨n, _, hn⟩ := List.mem_filterMap.mp hc
  exact isMove_of_component? hn

/-- A component list is a leading part of at most one component, and moves behind it. -/
theorem components_eq (p : Path) : ∃ lead,
    (lead = [.root] ∧ p.isAbsolute = true ∨ lead = [.here] ∧ p.isAbsolute = false ∨
      lead = [] ∧ p.isAbsolute = false) ∧ p.components = lead ++ p.moves := by
  unfold components moves
  cases hp : pieces p.bytes with
  | nil => exact absurd hp (pieces_ne_nil _)
  | cons first rest =>
      by_cases habs : p.isAbsolute = true
      · have hfirst : first = [] := by
          obtain ⟨bs, hbs⟩ : ∃ bs, p.bytes = slash :: bs := by
            cases hb : p.bytes with
            | nil => simp [isAbsolute, hb] at habs
            | cons b bs => simp_all [isAbsolute]
          rw [hbs, pieces_cons_slash] at hp
          exact (List.cons.inj hp).1.symm
        exact ⟨[.root], .inl ⟨rfl, habs⟩, by simp [habs, hfirst, component?]⟩
      · rw [Bool.not_eq_true] at habs
        by_cases hdot : first = dot
        · exact ⟨[.here], .inr (.inl ⟨rfl, habs⟩), by simp [habs, hdot, component?]⟩
        · refine ⟨[], .inr (.inr ⟨rfl, habs⟩), ?_⟩
          simp only [habs, hdot, Bool.false_eq_true, if_false, List.nil_append,
            List.filterMap_cons]
          cases component? first <;> rfl

theorem isProper_of_mem_moves {p : Path} {c : Component} (h : c ∈ p.moves) : IsProper c := by
  obtain ⟨n, hn, hc⟩ := List.mem_filterMap.mp h
  cases c with
  | name m => exact isPlain_of_component? hc (not_slash_of_mem_pieces hn)
  | root | here | up => trivial

theorem components_eq_nil {p : Path} (h : p.bytes = []) : p.components = [] := by
  obtain ⟨bytes⟩ := p
  obtain rfl : bytes = [] := h
  rfl

theorem components_ne_nil {p : Path} (h : p.bytes ≠ []) : p.components ≠ [] := by
  unfold components
  cases hp : pieces p.bytes with
  | nil => exact absurd hp (pieces_ne_nil _)
  | cons first rest =>
      obtain ⟨b, bs, hb⟩ := List.exists_cons_of_ne_nil h
      by_cases hslash : b = slash
      · simp [isAbsolute, hb, hslash]
      · have hne : first ≠ [] := by
          rw [hb, pieces_cons_of_ne hslash] at hp
          rw [← (List.cons.inj hp).1]
          exact List.cons_ne_nil _ _
        by_cases hdot : first = dot
        · simp [isAbsolute, hb, hslash, hdot]
        · have hsome : component? first ≠ none := by
            unfold component?
            rw [if_neg (not_or.mpr ⟨hne, hdot⟩)]
            split <;> simp
          cases hc : component? first with
          | none => contradiction
          | some c => simp [isAbsolute, hb, hslash, hdot, hc]

theorem components_join {p q : Path} (hp : p.bytes ≠ []) (hq : q.isAbsolute = false) :
    (p / q).components = p.components ++ q.moves := by
  obtain ⟨ps, hne, hps, hj⟩ := pieces_join hp hq
  obtain ⟨first, rest, rfl⟩ := List.exists_cons_of_ne_nil hne
  unfold components moves
  rw [hj, isAbsolute_join p hq]
  rcases hps with h | h <;> rw [h] <;> simp [component?]

theorem isPlain_text {c : Component} (h : IsProper c) (hroot : c ≠ .root) :
    ofComponents.text c ≠ [] ∧ slash ∉ ofComponents.text c := by
  cases c with
  | root => contradiction
  | here => decide
  | up => decide
  | name n => exact ⟨h.ne_nil, h.not_slash⟩

theorem filterMap_component?_text {cs : List Component} (h : ∀ c ∈ cs, IsProper c) :
    (cs.map ofComponents.text).filterMap component? = cs.filter isMove := by
  induction cs with
  | nil => rfl
  | cons c cs ih =>
      have hrest := ih fun x hx => h x (List.mem_cons_of_mem _ hx)
      rw [List.map_cons, List.filterMap_cons, List.filter_cons, hrest]
      cases c with
      | root => rfl
      | here => rfl
      | up => rfl
      | name n =>
          simp [ofComponents.text, component?_of_isPlain (h _ (List.mem_cons_self ..)), isMove]

/-- Only the root is written otherwise than by its text. -/
theorem ofComponents_eq_ofNames {cs : List Component} (hne : cs ≠ []) (hroot : .root ∉ cs) :
    ofComponents cs = ofNames (cs.map ofComponents.text) := by
  obtain ⟨c, ds, rfl⟩ := List.exists_cons_of_ne_nil hne
  cases c with
  | root => simp at hroot
  | here | up | name n => rfl

theorem isProper_of_mem_moves_append {p : Path} {ns : List Name} {c : Component}
    (hp : ∀ n ∈ ns, IsPlain n) (hc : c ∈ p.moves ++ ns.map .name) :
    IsProper c ∧ c ≠ .root := by
  rcases List.mem_append.mp hc with hc | hc
  · exact ⟨isProper_of_mem_moves hc, fun h => root_not_mem_moves p (h ▸ hc)⟩
  · obtain ⟨n, hn, rfl⟩ := List.mem_map.mp hc
    exact ⟨hp n hn, by simp⟩

/-- Writing components as a path and reading them back keeps the moves
and whether the path is absolute. -/
theorem ofComponents_lead_append {lead cs : List Component} (hne : cs ≠ [])
    (hlead : lead = [.root] ∨ lead = [.here] ∨ lead = [])
    (hcs : ∀ c ∈ cs, IsProper c ∧ c ≠ .root) :
    pieces (ofComponents (lead ++ cs)).bytes = lead.map ofComponents.text ++
        cs.map ofComponents.text ∧
      ((ofComponents (lead ++ cs)).isAbsolute = true ↔ lead = [.root]) := by
  have htext : ∀ ds : List Component, (∀ c ∈ ds, IsProper c ∧ c ≠ .root) →
      ∀ n ∈ ds.map ofComponents.text, n ≠ [] ∧ slash ∉ n := by
    intro ds hds n hn
    obtain ⟨c, hc, rfl⟩ := List.mem_map.mp hn
    exact isPlain_text (hds c hc).1 (hds c hc).2
  -- The root is no piece of its own but a slash in front.
  rcases hlead with rfl | hlead
  · have hp := pieces_ofNames (mt List.map_eq_nil_iff.mp hne) fun n hn => (htext cs hcs n hn).2
    simp only [List.singleton_append, ofComponents, pieces_cons_slash, hp]
    exact ⟨rfl, by simp [isAbsolute]⟩
  · have hall : ∀ c ∈ lead ++ cs, IsProper c ∧ c ≠ .root := by
      intro c hc
      rcases hlead with rfl | rfl
      · rcases List.mem_append.mp hc with hc | hc
        · rw [List.mem_singleton.mp hc]
          exact ⟨trivial, by simp⟩
        · exact hcs c hc
      · exact hcs c hc
    have hform :=
      ofComponents_eq_ofNames (List.append_ne_nil_of_right_ne_nil lead hne) fun hmem =>
      (hall _ hmem).2 rfl
    rw [hform, pieces_ofNames (by simp [hne]) fun n hn => (htext _ hall n hn).2,
      ofNames_not_isAbsolute (htext _ hall), List.map_append]
    exact ⟨rfl, by rcases hlead with rfl | rfl <;> simp⟩

/-- A path written anew from the components of another one and some names behind them. -/
theorem steps_ofComponents_append (p : Path) {ns : List Name} (hne : ns ≠ [])
    (hp : ∀ n ∈ ns, IsPlain n) :
    let q := ofComponents (p.components ++ ns.map .name)
    Tree.steps q = p.moves ++ ns.map .name ∧ q.isAbsolute = p.isAbsolute ∧ q.bytes ≠ [] := by
  intro q
  obtain ⟨lead, hlead, hcomps⟩ := components_eq p
  have hcs : ∀ c ∈ p.moves ++ ns.map Component.name, IsProper c ∧ c ≠ .root :=
    fun _ => isProper_of_mem_moves_append hp
  have hcsne : p.moves ++ ns.map Component.name ≠ [] := by simp [hne]
  have hq : q = ofComponents (lead ++ (p.moves ++ ns.map .name)) := by
    rw [← List.append_assoc, ← hcomps]
  have hlead' : lead = [.root] ∨ lead = [.here] ∨ lead = [] :=
    hlead.imp And.left (Or.imp And.left And.left)
  obtain ⟨hpieces, habs⟩ := ofComponents_lead_append hcsne hlead' hcs
  rw [← hq] at hpieces habs
  -- The path ends in a name, so no step behind the moves asks for a directory.
  have hlast : (pieces q.bytes).getLast? = some (ns.getLast hne) := by
    rw [hpieces, List.getLast?_append, List.map_append, List.getLast?_append, List.map_map]
    simp [List.getLast?_map, List.getLast?_eq_some_getLast hne, ofComponents.text]
  have hmoves : q.moves = p.moves ++ ns.map .name := by
    have hfilter : (p.moves ++ ns.map Component.name).filter isMove =
        p.moves ++ ns.map Component.name := by
      rw [List.filter_append, moves, filter_isMove_filterMap, List.filter_eq_self.mpr]
      intro c hc
      obtain ⟨n, -, rfl⟩ := List.mem_map.mp hc
      rfl
    rw [moves, hpieces, List.filterMap_append,
      filterMap_component?_text fun c hc => (hcs c hc).1, hfilter]
    rcases hlead with ⟨hl, -⟩ | ⟨hl, -⟩ | ⟨hl, -⟩ <;> simp [hl, ofComponents.text, component?]
  refine ⟨?_, ?_, ?_⟩
  · rw [steps_eq_moves hlast (hp _ (List.getLast_mem hne)), hmoves]
  · rcases hlead with ⟨hl, ha⟩ | ⟨hl, ha⟩ | ⟨hl, ha⟩
    · rw [ha, habs, hl]
    · rw [ha, ← Bool.not_eq_true, habs, hl]
      simp
    · rw [ha, ← Bool.not_eq_true, habs, hl]
      simp
  · intro h
    rw [h, pieces] at hlast
    exact (hp _ (List.getLast_mem hne)).ne_nil (Option.some.inj hlast).symm

theorem extends_ofComponents (p : Path) {ns : List Name} (hne : ns ≠ [])
    (hp : ∀ n ∈ ns, IsPlain n) :
    Extends p ns (ofComponents (p.components ++ ns.map .name)) := by
  obtain ⟨hsteps, habs, hbytes⟩ := steps_ofComponents_append p hne hp
  have hmoves : (ofComponents (p.components ++ ns.map .name)).moves =
      p.moves ++ ns.map .name := by
    rcases steps_eq_moves_or (ofComponents (p.components ++ ns.map .name)) with h | h
    · rw [← h, hsteps]
    · have hlast := congrArg List.getLast? (h.symm.trans hsteps)
      rw [List.getLast?_concat, List.getLast?_append, List.getLast?_map,
        List.getLast?_eq_some_getLast hne] at hlast
      simp at hlast
  exact ⟨hmoves, habs, fun _ => ⟨hsteps.trans hmoves.symm, hbytes⟩⟩

/-! ### Names that are left -/

theorem isPlain_of_normalizeFrom {stack names : List Name} {cs : List Component}
    (h : normalizeFrom stack cs = some names) (hs : ∀ n ∈ stack, IsPlain n)
    (hcs : ∀ c ∈ cs, IsProper c) : ∀ n ∈ names, IsPlain n := by
  fun_induction normalizeFrom stack cs with
  | case1 stack =>
      rw [← Option.some.inj h]
      exact fun n hn => hs n (List.mem_reverse.mp hn)
  | case2 stack n cs ih =>
      refine ih h (fun m hm => ?_) fun c hc => hcs c (List.mem_cons_of_mem _ hc)
      rcases List.mem_cons.mp hm with rfl | hm
      · exact hcs (.name m) (List.mem_cons_self ..)
      · exact hs m hm
  | case3 stack cs ih => exact ih h hs fun c hc => hcs c (List.mem_cons_of_mem _ hc)
  | case4 cs => simp at h
  | case5 cs top below ih =>
      exact ih h (fun n hn => hs n (List.mem_cons_of_mem _ hn))
        fun c hc => hcs c (List.mem_cons_of_mem _ hc)
  | case6 => simp at h

theorem isProper_of_mem_components {p : Path} {c : Component} (h : c ∈ p.components) :
    IsProper c := by
  obtain ⟨lead, hlead, hcomps⟩ := components_eq p
  rw [hcomps, List.mem_append] at h
  rcases h with h | h
  · rcases hlead with ⟨rfl, -⟩ | ⟨rfl, -⟩ | ⟨rfl, -⟩
    · rw [List.mem_singleton.mp h]
      trivial
    · rw [List.mem_singleton.mp h]
      trivial
    · simp at h
  · exact isProper_of_mem_moves h

/-- What `normalize?` leaves of a path are plain names. -/
theorem isPlain_of_normalize? {p : Path} {names : List Name} (h : p.normalize? = some names) :
    ∀ n ∈ names, IsPlain n :=
  isPlain_of_normalizeFrom h (by simp) fun _ => isProper_of_mem_components

theorem eq_append_of_stripBase? {base : List Component} {names below : List Name}
    (h : stripBase? base names = some below) :
    ∃ tops, base = tops.map .name ∧ names = tops ++ below := by
  fun_induction stripBase? base names with
  | case1 ns => exact ⟨[], rfl, (Option.some.inj h)⟩
  | case2 bs n ns ih =>
      obtain ⟨tops, hb, hn⟩ := ih h
      exact ⟨n :: tops, by simp [hb], by simp [hn]⟩
  | case3 => simp at h
  | case4 => simp at h

end LlvmBootstrap.Path
