import Mathlib.Tactic

/-!
Hash tables whose keys are compared by a test `same` of the user (the hashes and the keys are
equal). The test need not be an equivalence: then what a lookup finds depends on the order of the
buckets, which `arb` rearranges after each new key.

* `find`, `upsert`, `build`: lookup, insertion or update, and a run of updates.
* `EquivOn`: the test is an equivalence on the keys in use. Then a lookup finds what the updates of
  its class have left, whatever the order of the buckets (`find_build`, `find_pushes`).
* `forall_build`: what the updates keep holds of all values, whatever the test.
-/

/-- The entries, in the order of the buckets. -/
abbrev HashTable (K V : Type*) := List (K × V)

namespace HashTable

variable {K V : Type*}

/-- The value of the first entry with the key. -/
def find (same : K → K → Bool) (t : HashTable K V) (k : K) : Option V :=
  (t.find? fun e => same k e.1).map Prod.snd

/-- The first entry with the key is changed. -/
def update (same : K → K → Bool) (k : K) (f : V → V) : HashTable K V → HashTable K V
  | [] => []
  | e :: t => if same k e.1 then (e.1, f e.2) :: t else e :: update same k f t

/-- The value of a key is changed, or inserted with a new key. -/
def upsert (same : K → K → Bool) (arb : HashTable K V → HashTable K V) (t : HashTable K V)
    (k : K) (f : Option V → V) : HashTable K V :=
  if t.any fun e => same k e.1 then update same k (fun v => f (some v)) t
  else arb ((k, f none) :: t)

/-- One update after the other. -/
def build (same : K → K → Bool) (arb : HashTable K V → HashTable K V)
    (l : List (K × (Option V → V))) (t : HashTable K V) : HashTable K V :=
  l.foldl (fun t p => upsert same arb t p.1 p.2) t

/-- `t[k].push_back(v)` for each pair. -/
def pushes (l : List (K × V)) : List (K × (Option (List V) → List V)) :=
  l.map fun p => (p.1, fun old => old.getD [] ++ [p.2])

/-- The test is an equivalence on the keys in `S`. -/
structure EquivOn (same : K → K → Bool) (S : Set K) : Prop where
  refl : ∀ a ∈ S, same a a = true
  symm : ∀ a ∈ S, ∀ b ∈ S, same a b = true → same b a = true
  trans : ∀ a ∈ S, ∀ b ∈ S, ∀ c ∈ S, same a b = true → same b c = true → same a c = true

/-- The keys are in `S`, and no two of them are the same. -/
structure Valid (same : K → K → Bool) (S : Set K) (t : HashTable K V) : Prop where
  keys : ∀ e ∈ t, e.1 ∈ S
  apart : t.Pairwise fun e e' => same e.1 e'.1 = false ∧ same e'.1 e.1 = false

section

variable {same : K → K → Bool} {arb : HashTable K V → HashTable K V} {S : Set K}
  {t t' : HashTable K V} {k q : K}

lemma EquivOn.comm (hS : EquivOn same S) {a b : K} (ha : a ∈ S) (hb : b ∈ S) :
    same a b = same b a := by
  rw [Bool.eq_iff_iff]
  exact ⟨hS.symm a ha b hb, hS.symm b hb a ha⟩

lemma EquivOn.beq [BEq K] [LawfulBEq K] : EquivOn (fun a b : K => a == b) Set.univ where
  refl a _ := beq_self_eq_true a
  symm _ _ _ _ h := beq_iff_eq.mpr (beq_iff_eq.mp h).symm
  trans _ _ _ _ _ _ h h' := beq_iff_eq.mpr ((beq_iff_eq.mp h).trans (beq_iff_eq.mp h'))

lemma Valid.nil : Valid same S ([] : HashTable K V) := ⟨by simp, List.Pairwise.nil⟩

/-- Keys that are the same pass the test with the same keys. -/
lemma EquivOn.congr (hS : EquivOn same S) {a b c : K} (ha : a ∈ S) (hb : b ∈ S) (hc : c ∈ S)
    (h : same a b = true) : same a c = same b c := by
  rw [Bool.eq_iff_iff]
  exact ⟨hS.trans b hb a ha c hc (hS.symm a ha b hb h), hS.trans a ha b hb c hc h⟩

/-- Keys that are the same have the same entry. -/
lemma EquivOn.find_eq (hS : EquivOn same S) (ht : ∀ e ∈ t, e.1 ∈ S) {a b : K} (ha : a ∈ S)
    (hb : b ∈ S) (h : same a b = true) : find same t a = find same t b := by
  rw [find, find, List.find?_congr fun e he => hS.congr ha hb (ht e he) h]

lemma Valid.tail {e : K × V} (h : Valid same S (e :: t)) : Valid same S t :=
  ⟨fun e' he' => h.keys e' (List.mem_cons_of_mem e he'), (List.pairwise_cons.mp h.apart).2⟩

lemma Valid.perm (h : Valid same S t) (hp : t'.Perm t) : Valid same S t' :=
  ⟨fun e he => h.keys e (hp.subset he), (hp.pairwise_iff And.symm).mpr h.apart⟩

/-- A lookup finds the one entry of its class. -/
lemma Valid.find_eq_some_iff (h : Valid same S t) (hS : EquivOn same S) (hq : q ∈ S) {v : V} :
    find same t q = some v ↔ ∃ e ∈ t, same q e.1 = true ∧ e.2 = v := by
  induction t with
  | nil => simp [find]
  | cons e t ih =>
      have he := h.keys e List.mem_cons_self
      rw [find, List.find?_cons]
      cases hsame : same q e.1 with
      | true =>
          simp only [List.exists_mem_cons_iff, hsame, true_and, Option.map_some, Option.some.injEq]
          refine ⟨.inl, fun hor => hor.resolve_right ?_⟩
          rintro ⟨e', he', hsame', -⟩
          have hne := ((List.pairwise_cons.mp h.apart).1 e' he').1
          rw [← hS.congr hq he (h.tail.keys e' he') hsame, hsame'] at hne
          exact Bool.noConfusion hne
      | false =>
          simp only [List.exists_mem_cons_iff, hsame, Bool.false_eq_true, false_and, false_or]
          exact ih h.tail

/-- The order of the entries does not matter. -/
lemma Valid.find_perm (h : Valid same S t) (hS : EquivOn same S) (hp : t'.Perm t) (hq : q ∈ S) :
    find same t' q = find same t q := by
  refine Option.ext fun v => ?_
  rw [(h.perm hp).find_eq_some_iff hS hq, h.find_eq_some_iff hS hq]
  simp only [hp.mem_iff]

/-- An update keeps the keys. -/
lemma map_fst_update (f : V → V) (t : HashTable K V) :
    (update same k f t).map Prod.fst = t.map Prod.fst := by
  induction t with
  | nil => rfl
  | cons e t ih =>
      rw [update]
      split_ifs
      · rfl
      · rw [List.map_cons, List.map_cons, ih]

lemma Valid.of_map_fst (h : Valid same S t) (heq : t'.map Prod.fst = t.map Prod.fst) :
    Valid same S t' := by
  constructor
  · intro e he
    obtain ⟨e', he', hfst⟩ := List.mem_map.mp (heq ▸ List.mem_map_of_mem he)
    exact hfst ▸ h.keys e' he'
  · have hkeys : (t.map Prod.fst).Pairwise fun a b => same a b = false ∧ same b a = false :=
      List.pairwise_map.mpr h.apart
    rw [← heq] at hkeys
    exact List.pairwise_map.mp hkeys

lemma find_update {f : V → V} (hS : EquivOn same S) (h : Valid same S t) (hk : k ∈ S)
    (hq : q ∈ S) : find same (update same k f t) q =
      if same q k then (find same t q).map f else find same t q := by
  induction t with
  | nil => simp [update, find]
  | cons e t ih =>
      have he := h.keys e List.mem_cons_self
      rw [update]
      cases hke : same k e.1 with
      | true =>
          rw [if_pos rfl, find, find, List.find?_cons, List.find?_cons]
          have hqe : same q e.1 = same q k := by
            rw [hS.comm hq he, hS.comm hq hk, ← hS.congr hk he hq hke]
          dsimp only
          cases hqk : same q k with
          | true => rw [hqe, hqk]; rfl
          | false => rw [hqe, hqk]; rfl
      | false =>
          rw [if_neg Bool.false_ne_true, find, find, List.find?_cons, List.find?_cons]
          cases hqe : same q e.1 with
          | true =>
              -- `q` is equal to the entry, so not to `k`
              have hqk : same q k = false := by
                rw [hS.congr hq he hk hqe, hS.comm he hk, hke]
              rw [hqk]
              rfl
          | false => exact ih h.tail

variable {f : Option V → V}

lemma Valid.cons (h : Valid same S t) (hS : EquivOn same S) (hk : k ∈ S) (v : V)
    (hnew : (t.any fun e => same k e.1) = false) : Valid same S ((k, v) :: t) := by
  refine ⟨List.forall_mem_cons.mpr ⟨hk, h.keys⟩, List.pairwise_cons.mpr ⟨fun e he => ?_, h.apart⟩⟩
  have hne : same k e.1 = false := Bool.eq_false_iff.mpr (List.any_eq_false.mp hnew e he)
  exact ⟨hne, hS.comm hk (h.keys e he) ▸ hne⟩

lemma Valid.upsert (h : Valid same S t) (hS : EquivOn same S) (harb : ∀ t, (arb t).Perm t)
    (hk : k ∈ S) : Valid same S (upsert same arb t k f) := by
  rw [HashTable.upsert]
  cases hany : t.any fun e => same k e.1 with
  | true => exact h.of_map_fst (map_fst_update _ t)
  | false => exact (h.cons hS hk _ hany).perm (harb _)

/-- **One update** changes what is found for the keys of its class. -/
lemma Valid.find_upsert (h : Valid same S t) (hS : EquivOn same S) (harb : ∀ t, (arb t).Perm t)
    (hk : k ∈ S) (hq : q ∈ S) : find same (HashTable.upsert same arb t k f) q =
      if same q k then some (f (find same t q)) else find same t q := by
  rw [HashTable.upsert]
  -- the key is equal to one of the table, or it is put in front
  cases hany : t.any fun e => same k e.1 with
  | true =>
      rw [if_pos rfl, find_update hS h hk hq]
      split_ifs with hqk
      · obtain ⟨e, he, hke⟩ := List.any_eq_true.mp hany
        have hqe := hS.trans q hq k hk e.1 (h.keys e he) hqk hke
        rw [(h.find_eq_some_iff hS hq).mpr ⟨e, he, hqe, rfl⟩, Option.map_some]
      · rfl
  | false =>
      rw [if_neg Bool.false_ne_true, (h.cons hS hk _ hany).find_perm hS (harb _) hq, find,
        List.find?_cons]
      cases hqk : same q k with
      | false => rfl
      | true =>
          have hnone : find same t q = none := by
            refine Option.eq_none_iff_forall_ne_some.mpr fun v hv => ?_
            obtain ⟨e, he, hqe, -⟩ := (h.find_eq_some_iff hS hq).mp hv
            rw [hS.congr hq hk (h.keys e he) hqk] at hqe
            exact List.any_eq_false.mp hany e he hqe
          rw [hnone]
          rfl

/-- **A run of updates**: a lookup finds what the updates of its class have left, in the order in
which they were made. -/
theorem Valid.find_build {l : List (K × (Option V → V))} (h : Valid same S t)
    (hS : EquivOn same S) (harb : ∀ t, (arb t).Perm t) (hl : ∀ p ∈ l, p.1 ∈ S) (hq : q ∈ S) :
    find same (build same arb l t) q =
      (l.filter fun p => same q p.1).foldl (fun v p => some (p.2 v)) (find same t q) := by
  induction l generalizing t with
  | nil => rfl
  | cons p l ih =>
      obtain ⟨hp, hl⟩ := List.forall_mem_cons.mp hl
      have hstep := h.find_upsert (f := p.2) hS harb hp hq
      rw [build, List.foldl_cons, ← build, ih (h.upsert hS harb hp) hl, hstep, List.filter_cons]
      split_ifs <;> rfl

/-- Assigning the entries of one table to another, with their values changed. -/
lemma Valid.find_assign {W : Type*} {arb : HashTable K W → HashTable K W} (h : Valid same S t)
    (hS : EquivOn same S) (harb : ∀ t, (arb t).Perm t) (g : V → W) (hq : q ∈ S) :
    find same (HashTable.build same arb (t.map fun e => (e.1, fun _ => g e.2)) []) q =
      (find same t q).map g := by
  have hkeys : ∀ p ∈ t.map fun e => (e.1, fun _ : Option W => g e.2), p.1 ∈ S := by
    intro p hp
    obtain ⟨e, he, rfl⟩ := List.mem_map.mp hp
    exact h.keys e he
  rw [Valid.nil.find_build hS harb hkeys hq, List.filter_map, List.foldl_map]
  show List.foldl (fun _ (e : K × V) => some (g e.2)) none (t.filter fun e => same q e.1) = _
  clear hkeys
  induction t with
  | nil => rfl
  | cons e t ih =>
      have he := h.keys e List.mem_cons_self
      rw [List.filter_cons, find, List.find?_cons]
      cases hqe : same q e.1 with
      | false => exact ih h.tail
      | true =>
          -- the keys of a table are apart, so no later entry is equal to `q`
          have hnone : (t.filter fun e => same q e.1) = [] := by
            refine List.filter_eq_nil_iff.mpr fun e' he' hqe' => ?_
            have hne := ((List.pairwise_cons.mp h.apart).1 e' he').1
            rw [← hS.congr hq he (h.tail.keys e' he') hqe, hqe'] at hne
            exact Bool.noConfusion hne
          rw [if_pos rfl, hnone]
          rfl

/-- The values pushed for a class of keys. -/
def pushed (same : K → K → Bool) (l : List (K × V)) (q : K) : List V :=
  (l.filter fun p => same q p.1).map Prod.snd

lemma mem_pushed {l : List (K × V)} {v : V} :
    v ∈ pushed same l q ↔ ∃ p ∈ l, same q p.1 = true ∧ p.2 = v := by
  simp only [pushed, List.mem_map, List.mem_filter, and_assoc]

lemma find_pushes {l : List (K × V)}
    {arb : HashTable K (List V) → HashTable K (List V)} (hS : EquivOn same S)
    (harb : ∀ t, (arb t).Perm t) (hl : ∀ p ∈ l, p.1 ∈ S) (hq : q ∈ S) :
    find same (HashTable.build same arb (pushes l) []) q =
      if pushed same l q = [] then none else some (pushed same l q) := by
  have hrun : ∀ (vs : List (K × V)) (old : Option (List V)),
      (pushes vs).foldl (fun v p => some (p.2 v)) old =
        if vs = [] then old else some (old.getD [] ++ vs.map Prod.snd) := by
    intro vs
    induction vs with
    | nil => exact fun old => rfl
    | cons p vs ih =>
        intro old
        rw [pushes, List.map_cons, List.foldl_cons, ← pushes, ih]
        by_cases hvs : vs = []
        · simp [hvs]
        · simp [hvs]
  have hkeys : ∀ p ∈ pushes l, p.1 ∈ S := by
    intro p hp
    obtain ⟨p', hp', rfl⟩ := List.mem_map.mp hp
    exact hl p' hp'
  have hfilter : (pushes l).filter (fun p => same q p.1) =
      pushes (l.filter fun p => same q p.1) := by
    rw [pushes, pushes, List.filter_map]
    rfl
  -- the updates are those of the pairs whose key is equal to `q`
  rw [Valid.nil.find_build hS harb hkeys hq, hfilter, hrun, pushed]
  simp only [find, List.find?_nil, Option.map_none, Option.getD_none, List.nil_append,
    List.map_eq_nil_iff]

lemma Valid.build {l : List (K × (Option V → V))} (h : Valid same S t) (hS : EquivOn same S)
    (harb : ∀ t, (arb t).Perm t) (hl : ∀ p ∈ l, p.1 ∈ S) : Valid same S (build same arb l t) := by
  induction l generalizing t with
  | nil => exact h
  | cons p l ih =>
      obtain ⟨hp, hl⟩ := List.forall_mem_cons.mp hl
      exact ih (h.upsert hS harb hp) hl

/-! ### What all values have in common -/

/-- What is found is the value of an entry, whatever the test. -/
lemma exists_of_find {v : V} (h : find same t k = some v) : ∃ e ∈ t, e.2 = v := by
  obtain ⟨e, he, hv⟩ := Option.map_eq_some_iff.mp h
  exact ⟨e, List.mem_of_find?_eq_some he, hv⟩

variable {P : V → Prop}

lemma forall_update {g : V → V} (ht : ∀ e ∈ t, P e.2) (hg : ∀ v, P v → P (g v)) :
    ∀ e ∈ update same k g t, P e.2 := by
  induction t with
  | nil => exact ht
  | cons e t ih =>
      obtain ⟨he, ht⟩ := List.forall_mem_cons.mp ht
      rw [update]
      split_ifs
      · exact List.forall_mem_cons.mpr ⟨hg _ he, ht⟩
      · exact List.forall_mem_cons.mpr ⟨he, ih ht⟩

lemma forall_upsert (harb : ∀ t, (arb t).Perm t) (ht : ∀ e ∈ t, P e.2) (hnew : P (f none))
    (hf : ∀ v, P v → P (f (some v))) : ∀ e ∈ upsert same arb t k f, P e.2 := by
  rw [HashTable.upsert]
  split_ifs
  · exact forall_update ht hf
  · intro e he
    rcases List.mem_cons.mp ((harb _).mem_iff.mp he) with rfl | he
    · exact hnew
    · exact ht e he

/-- A property of the values that every update keeps. -/
lemma forall_build {l : List (K × (Option V → V))} (harb : ∀ t, (arb t).Perm t)
    (ht : ∀ e ∈ t, P e.2) (hl : ∀ p ∈ l, P (p.2 none) ∧ ∀ v, P v → P (p.2 (some v))) :
    ∀ e ∈ build same arb l t, P e.2 := by
  induction l generalizing t with
  | nil => exact ht
  | cons p l ih =>
      obtain ⟨hp, hl⟩ := List.forall_mem_cons.mp hl
      exact ih (forall_upsert harb ht hp.1 hp.2) hl

end

end HashTable
