import CppExamples.Practice.Pheromone

/-!
# The tour that the ant returns (`cjunk/practice/antColonyOptimization.cc:38-91`)

`path` is the best tour when a sample replaces it, and the tour that the exchanges work on behind
that. An exchange behind the last replacement loses the best tour: `ant_loses_best`.

Which cities are exchanged is read off the draws: the first one is looked up in `shares`, which the
pheromone before the iteration and the tour determine, and the second one is compared with `q0`.
`Idle` says that the draws exchange nothing, or the first two cities twice. Replacements are read
off the samples: the last one is the last sample that is shorter than all before it.

* `ant_best`: the result is no longer than any sampled path in every run whose draws are idle from
  the last replacement on.
-/

namespace CppExamples.Practice.AntColony

open Lib Lib.Loop Lib.Machine

/-! ## What the draws select -/

section Draws

variable {D : Type} (A : Arithmetic D) (M : Model D) (P : Parameters D) (s : Ant D)
  (path : List Nat) (x : Sample D)

/-- The upper ends of the intervals for the draw: the parts of the weights up to each position, with
the pheromone of `s` and the deposit for `path`. -/
def shares : Nat → D :=
  limits A M P path.length fun j =>
    mixed A P (s.pheromone.getD j A.zero) (deposit A M path.length path j)

/-- The draw falls in the interval of the last position. -/
def DrawsLast : Prop :=
  A.lt x.r (shares A M P s path (path.length - 1)) = true ∧
    ∀ j < path.length - 1, A.lt x.r (shares A M P s path j) = false

/-- The draw falls in the interval of the first position, or in none. -/
def DrawsFirst : Prop :=
  A.lt x.r (shares A M P s path 0) = true ∨
    ∀ j < path.length, A.lt x.r (shares A M P s path j) = false

/-- The second draw is made, and is below `q0`. -/
def DrawsBelow : Prop := A.lt A.zero P.q0 = true ∧ A.lt x.rq P.q0 = true

/-- The draws leave the tour as it is: they exchange nothing, or the first two cities twice. -/
def Idle : Prop :=
  DrawsLast A M P s (sampled A M s x.nextPath).path x ∧ ¬ DrawsBelow A P x ∨
    DrawsFirst A M P s (sampled A M s x.nextPath).path x ∧ DrawsBelow A P x

instance decidableDrawsLast : Decidable (DrawsLast A M P s path x) :=
  inferInstanceAs (Decidable (_ ∧ _))

instance decidableDrawsFirst : Decidable (DrawsFirst A M P s path x) :=
  inferInstanceAs (Decidable (_ ∨ _))

instance decidableDrawsBelow : Decidable (DrawsBelow A P x) := inferInstanceAs (Decidable (_ ∧ _))

instance decidableIdle : Decidable (Idle A M P s x) := inferInstanceAs (Decidable (_ ∨ _))

end Draws

section Iteration

variable {D : Type} {A : Arithmetic D} {M : Model D} {P : Parameters D} {n : Nat} {s s' : Ant D}
  {path path' : List Nat} {x : Sample D}

theorem eq_vector {v : List D} (h : v.length = n) (d : D) : v = vector n fun j => v.getD j d := by
  refine List.ext_getElem? fun j => ?_
  by_cases hj : j < n
  · rw [getElem?_vector hj, List.getD_eq_getElem?_getD, List.getElem?_eq_getElem (by omega),
      Option.getD_some]
  · rw [List.getElem?_eq_none (by omega), List.getElem?_eq_none (by rw [length_vector]; omega)]

/-- `next` is the first position whose share is above the draw, or 0. -/
theorem choose_next (found : Option Nat) (hn : 1 ≤ n) (hmax : (n : Int) ≤ CInt.intMax)
    (hpath : path.length = n) (hlen : s.pheromone.length = n)
    (hsearch : ∀ test : Nat → Option Bool,
      (∀ j < n, test j = some (A.lt x.r (shares A M P s path j))) → search n test = some found) :
    ∃ pheromone, choose A M P path s.pheromone x.r = some (pheromone, found.getD 0) := by
  have hselect : selectNext A path (vector n (shares A M P s path)) x.r = some (found.getD 0) := by
    unfold selectNext
    rw [hpath, hsearch _ fun j hj => by rw [getElem?_vector hj, Option.map_some], Option.map_some]
  rw [shares, hpath] at hselect
  rw [eq_vector hlen A.zero, choose_eq hmax hpath hn, hselect]
  exact ⟨_, rfl⟩

theorem choose_of_drawsLast (hn : 1 ≤ n) (hmax : (n : Int) ≤ CInt.intMax) (hpath : path.length = n)
    (hlen : s.pheromone.length = n) (h : DrawsLast A M P s path x) :
    ∃ pheromone, choose A M P path s.pheromone x.r = some (pheromone, n - 1) := by
  rw [DrawsLast, hpath] at h
  refine choose_next (some (n - 1)) hn hmax hpath hlen fun test htest => ?_
  exact search_eq hmax htest (by omega) h.1 h.2

theorem choose_of_drawsFirst (hn : 1 ≤ n) (hmax : (n : Int) ≤ CInt.intMax)
    (hpath : path.length = n) (hlen : s.pheromone.length = n) (h : DrawsFirst A M P s path x) :
    ∃ pheromone, choose A M P path s.pheromone x.r = some (pheromone, 0) := by
  rw [DrawsFirst, hpath] at h
  rcases h with h | h
  · refine choose_next (some 0) hn hmax hpath hlen fun test htest => ?_
    exact search_eq hmax htest hn h fun k hk => absurd hk (Nat.not_lt_zero k)
  · refine choose_next none hn hmax hpath hlen fun test htest => ?_
    exact search_eq_none hmax fun j hj => (htest j hj).trans (congrArg some (h j hj))

theorem exchangeNext_length {next : Nat} (h : exchangeNext path next = some path') :
    path'.length = path.length := by
  unfold exchangeNext at h
  split at h
  · obtain ⟨k, -, hk⟩ := Option.bind_eq_some_iff.mp h
    exact exchange_length hk
  · rw [Option.some.inj h]

theorem exchangeFirst_length {rq : D} (h : exchangeFirst A P path rq = some path') :
    path'.length = path.length := by
  unfold exchangeFirst at h
  split at h
  · split at h
    · exact exchange_length h
    · rw [Option.some.inj h]
  · rw [Option.some.inj h]

/-- An iteration that is defined keeps the lengths. -/
theorem Sized.of_iteration (hs : Sized n s) (hn : 1 ≤ n) (hmax : (n : Int) ≤ CInt.intMax)
    (hx : x.nextPath.length = n) (h : AntColony.iteration A M P s x = some s') : Sized n s' := by
  have hsampled : Sized n (AntColony.sampled A M s x.nextPath) := hs.sampled hx
  obtain ⟨pheromone, next, hchoose, hlen, -⟩ :=
    exists_choose (A := A) (M := M) (P := P) hmax hsampled.path hn hsampled.pheromone x.r
  unfold AntColony.iteration at h
  simp only [hchoose, Option.bind_eq_bind, Option.bind_some, Option.bind_eq_some_iff] at h
  obtain ⟨path, hnext, path', hfirst, hs'⟩ := h
  obtain rfl := Option.some.inj hs'
  have hpath := (exchangeFirst_length hfirst).trans (exchangeNext_length hnext)
  exact ⟨hpath.trans hsampled.path, hlen⟩

/-- Without cities the loop over `delta_pheromone` leaves it. -/
theorem iteration_no_city (hs : s.path = []) (hx : x.nextPath = []) :
    iteration A M P s x = none := by
  have hpath : (sampled A M s x.nextPath).path = [] := by
    rcases sampled_path s x.nextPath with h | h
    · rw [h, hx]
    · rw [h, hs]
  have hdelta : deltaPheromone A M [] = none := rfl
  unfold iteration choose
  dsimp only
  rw [hpath, hdelta]
  rfl

theorem exchangeFirst_of_not_below (h : ¬ DrawsBelow A P x) :
    exchangeFirst A P path x.rq = some path := by
  unfold exchangeFirst
  split
  · next hzero =>
    exact if_neg fun hbelow => h ⟨hzero, hbelow⟩
  · rfl

/-- **An idle iteration keeps the tour.** -/
theorem Idle.path_eq (hidle : Idle A M P s x) (h : iteration A M P s x = some s')
    (hn : 1 ≤ n) (hmax : (n : Int) ≤ CInt.intMax) (hs : Sized n s) (hx : x.nextPath.length = n) :
    s'.path = (sampled A M s x.nextPath).path := by
  obtain ⟨hexchanges, -⟩ := iteration_eq_some h
  have hpath : (sampled A M s x.nextPath).path.length = n := (hs.sampled hx).path
  have hlast := lastIndex_eq hn hmax hpath
  rw [sampled_pheromone] at hexchanges
  unfold Idle at hidle
  generalize (sampled A M s x.nextPath).path = path at *
  unfold exchanges at hexchanges
  rcases hidle with ⟨hdraw, hbelow⟩ | ⟨hdraw, hbelow⟩
  · obtain ⟨pheromone, hchoose⟩ := choose_of_drawsLast hn hmax hpath hs.pheromone hdraw
    have hnext : exchangeNext path (n - 1) = some path := if_neg (not_not.mpr hlast.symm)
    rw [hchoose, Option.bind_eq_bind, Option.bind_some] at hexchanges
    dsimp only at hexchanges
    rw [hnext, Option.bind_eq_bind, Option.bind_some, exchangeFirst_of_not_below hbelow]
      at hexchanges
    exact (Option.some.inj hexchanges).symm
  · obtain ⟨pheromone, hchoose⟩ := choose_of_drawsFirst hn hmax hpath hs.pheromone hdraw
    have hfirst : ∀ path, exchangeFirst A P path x.rq = exchange path 0 1 := fun path => by
      rw [exchangeFirst, if_pos hbelow.1, if_pos hbelow.2]
    rw [hchoose, Option.bind_eq_bind, Option.bind_some, Option.bind_eq_bind,
      Option.bind_eq_some_iff] at hexchanges
    obtain ⟨path₁, hnext, hback⟩ := hexchanges
    rw [hfirst] at hback
    by_cases hone : n = 1
    · -- one city: there is nothing to exchange with
      have hlen := exchangeNext_length hnext
      have hlt := lt_of_exchange hback
      omega
    · have hnext' : exchangeNext path 0 = exchange path 0 1 := by
        unfold exchangeNext
        rw [if_pos (by omega), succ_eq_some (b := n) (by omega) hmax, Option.bind_some]
      rw [hnext'] at hnext
      rw [exchange_exchange hnext] at hback
      exact (Option.some.inj hback).symm

end Iteration

/-! ## Runs -/

section Best

variable {D : Type} [LinearOrder D] {A : Arithmetic D} {M : Model D} {P : Parameters D} {n : Nat}
  {s s' : Ant D} {x : Sample D} {before later : List (Sample D)}

variable (M) in
/-- A sample of `later` is shorter than all of `before`. -/
def Improves (before later : List (Sample D)) : Prop :=
  ∃ y ∈ later, ∀ z ∈ before, M.getDistance y.nextPath < M.getDistance z.nextPath

variable (A M P) in
/-- From the last sample on that is shorter than all before it, the draws are idle. -/
def KeepsBest (first : List Nat) (samples : List (Sample D)) : Prop :=
  ∀ before x later, samples = before ++ x :: later →
    Improves M (before ++ [x]) later ∨
      ∀ s, run (iteration A M P) (start A first) before = some s → Idle A M P s x

variable (A M) in
/-- Behind the samples `before`, with `later` to come: `best_distance` is the least distance, and
the tour has it if no improvement is to come. -/
structure Leads (before later : List (Sample D)) (s : Ant D) : Prop where
  least : ∀ z ∈ before, s.bestDistance ≤ M.getDistance z.nextPath
  attained : before = [] ∧ s.bestDistance = A.max ∨
    ∃ z ∈ before, s.bestDistance = M.getDistance z.nextPath
  tour : M.getDistance s.path ≤ s.bestDistance ∨ Improves M before later

/-- **One iteration.** -/
theorem Leads.iteration (h : Leads A M before (x :: later) s) (hlt : ∀ a b, A.lt a b = true ↔ a < b)
    (hbelow : M.getDistance x.nextPath < A.max) (hs' : iteration A M P s x = some s')
    (hkeep : Improves M (before ++ [x]) later ∨ s'.path = (sampled A M s x.nextPath).path) :
    Leads A M (before ++ [x]) later s' := by
  have hbest := (iteration_eq_some hs').2
  unfold sampled at hbest hkeep
  dsimp only at hbest hkeep
  by_cases hless : M.getDistance x.nextPath < s.bestDistance
  · -- the sample is the new tour
    rw [if_pos ((hlt _ _).mpr hless)] at hbest hkeep
    refine ⟨fun z hz => ?_, .inr ⟨x, by simp, hbest⟩, ?_⟩
    · rw [hbest]
      rcases List.mem_append.mp hz with hz | hz
      · exact hless.le.trans (h.least z hz)
      · rw [List.mem_singleton.mp hz]
    · rcases hkeep with hkeep | hkeep
      · exact .inr hkeep
      · exact .inl (by rw [hkeep, hbest])
  · rw [if_neg (mt (hlt _ _).mp hless)] at hbest hkeep
    rw [not_lt] at hless
    obtain ⟨hnil, hstart⟩ | ⟨z₀, hz₀, hattained⟩ := h.attained
    · exact absurd hbelow (not_lt.mpr (hstart ▸ hless))
    refine ⟨fun z hz => ?_, .inr ⟨z₀, List.mem_append_left _ hz₀, hbest.trans hattained⟩, ?_⟩
    · rw [hbest]
      rcases List.mem_append.mp hz with hz | hz
      · exact h.least z hz
      · rw [List.mem_singleton.mp hz]
        exact hless
    · rcases hkeep with hkeep | hkeep
      · exact .inr hkeep
      · rcases h.tour with htour | ⟨y, hy, himproves⟩
        · exact .inl (by rwa [hkeep, hbest])
        · rcases List.mem_cons.mp hy with rfl | hy
          · -- `x` would have replaced the tour
            exact absurd (himproves z₀ hz₀) (not_lt.mpr (hattained ▸ hless))
          · refine .inr ⟨y, hy, fun z hz => ?_⟩
            rcases List.mem_append.mp hz with hz | hz
            · exact himproves z hz
            · rw [List.mem_singleton.mp hz]
              exact (himproves z₀ hz₀).trans_le (hattained ▸ hless)

/-- **A run.** The induction is over the samples behind. -/
theorem leads_of_run {first : List Nat} {samples : List (Sample D)} (hne : samples ≠ [])
    (hlt : ∀ a b, A.lt a b = true ↔ a < b) (hn : 1 ≤ n) (hmax : (n : Int) ≤ CInt.intMax)
    (hfirst : first.length = n) (hlen : ∀ x ∈ samples, x.nextPath.length = n)
    (hbelow : ∀ x ∈ samples, M.getDistance x.nextPath < A.max)
    (hkeeps : KeepsBest A M P first samples) (hsplit : samples = before ++ later)
    (hrun : run (iteration A M P) (start A first) before = some s) :
    Sized n s ∧ Leads A M before later s := by
  induction before using List.reverseRecOn generalizing later s with
  | nil =>
    obtain ⟨y, rest, rfl⟩ := List.exists_cons_of_ne_nil hne
    obtain rfl : y :: rest = later := hsplit
    obtain rfl := Option.some.inj hrun
    have himproves : Improves M [] (y :: rest) :=
      ⟨y, List.mem_cons_self, fun z hz => absurd hz List.not_mem_nil⟩
    refine ⟨sized_start hfirst, fun z hz => ?_, .inl ⟨rfl, rfl⟩, .inr himproves⟩
    exact absurd hz List.not_mem_nil
  | append_singleton before x ih =>
    rw [List.append_assoc, List.singleton_append] at hsplit
    rw [run_append, Option.bind_eq_some_iff] at hrun
    obtain ⟨u, hu, hlast⟩ := hrun
    obtain ⟨s', hs', hnil⟩ := run_cons_eq_some.mp hlast
    obtain rfl := Option.some.inj hnil
    obtain ⟨hsized, hleads⟩ := ih hsplit hu
    have hx : x ∈ samples := hsplit ▸ List.mem_append_right _ List.mem_cons_self
    refine ⟨hsized.of_iteration hn hmax (hlen x hx) hs', ?_⟩
    refine hleads.iteration hlt (hbelow x hx) hs' ((hkeeps before x later hsplit).imp_right ?_)
    exact fun hidle => (hidle u hu).path_eq hs' hn hmax hsized (hlen x hx)

omit [LinearOrder D] in
/-- A run with an iteration needs a city, and no more than an `int` counts. -/
theorem bounds_of_ant {first path : List Nat} {samples : List (Sample D)}
    (hfirst : first.length = n) (hlen : ∀ x ∈ samples, x.nextPath.length = n) (hx : x ∈ samples)
    (h : ant A M P first samples = some path) : 1 ≤ n ∧ (n : Int) ≤ CInt.intMax := by
  obtain ⟨y, rest, rfl⟩ := List.exists_cons_of_ne_nil (List.ne_nil_of_mem hx)
  have hy := hlen y List.mem_cons_self
  constructor
  · refine Nat.pos_of_ne_zero fun hzero => ?_
    subst hzero
    rw [ant, run, iteration_no_city (List.length_eq_zero_iff.mp hfirst)
      (List.length_eq_zero_iff.mp hy)] at h
    cases h
  · by_contra hmax
    rw [ant_overflow (not_le.mp hmax) hfirst hy] at h
    cases h

end Best

/-- **The ant returns its best tour if nothing is exchanged behind it.** Over a linear order of
distances and for paths of one length, the result is no longer than any sampled path in every run
whose draws are idle from the last sample on that is shorter than all before it. With 2 to `INT_MAX`
cities every run has a result. -/
theorem ant_best {D : Type} [LinearOrder D] (A : Arithmetic D) (M : Model D) (P : Parameters D)
    (hlt : ∀ a b, A.lt a b = true ↔ a < b) (n : Nat) (first : List Nat) (hfirst : first.length = n)
    (samples : List (Sample D)) (hlen : ∀ x ∈ samples, x.nextPath.length = n)
    (hbelow : ∀ x ∈ samples, M.getDistance x.nextPath < A.max)
    (hkeeps : KeepsBest A M P first samples) :
    (∀ path, ant A M P first samples = some path →
      ∀ x ∈ samples, M.getDistance path ≤ M.getDistance x.nextPath) ∧
    (2 ≤ n → (n : Int) ≤ CInt.intMax → ∃ path, ant A M P first samples = some path) := by
  constructor
  · intro path hpath x hx
    obtain ⟨hn, hmax⟩ := bounds_of_ant hfirst hlen hx hpath
    obtain ⟨s, hrun, rfl⟩ := Option.map_eq_some_iff.mp hpath
    obtain ⟨-, hleads⟩ := leads_of_run (List.ne_nil_of_mem hx) hlt hn hmax hfirst hlen hbelow hkeeps
      (List.append_nil samples).symm hrun
    rcases hleads.tour with htour | ⟨y, hy, -⟩
    · exact htour.trans (hleads.least x hx)
    · exact absurd hy List.not_mem_nil
  · intro hn hmax
    obtain ⟨path, hpath, -⟩ := exists_ant (A := A) (M := M) (P := P) (T := fun p => p.length = n)
      (fun hqp hp => hqp.length_eq.trans hp) id hn hmax hfirst hlen
    exact ⟨path, hpath⟩

/-- Three cities on a line. The draw of the first iteration exchanges two cities, but the sample of
the second one is shorter, and its draw falls in the last interval. -/
theorem ant_best_three :
    (∀ path, ant rational (line 3) plain [2, 0, 1] [⟨[1, 0, 2], 0, 0⟩, ⟨[0, 1, 2], 9 / 10, 0⟩] =
        some path → ∀ x ∈ [(⟨[1, 0, 2], 0, 0⟩ : Sample ℚ), ⟨[0, 1, 2], 9 / 10, 0⟩],
          lineDistance path ≤ lineDistance x.nextPath) ∧
    (2 ≤ 3 → ((3 : Nat) : Int) ≤ CInt.intMax →
      ∃ path, ant rational (line 3) plain [2, 0, 1]
        [⟨[1, 0, 2], 0, 0⟩, ⟨[0, 1, 2], 9 / 10, 0⟩] = some path) := by
  refine ant_best rational (line 3) plain (fun a b => decide_eq_true_iff) 3 [2, 0, 1] rfl
    [⟨[1, 0, 2], 0, 0⟩, ⟨[0, 1, 2], 9 / 10, 0⟩] (by simp) (by decide +kernel) ?_
  intro before x later hsplit
  rcases before with - | ⟨y, before⟩
  · obtain ⟨rfl, rfl⟩ := List.cons.inj hsplit
    refine .inl ⟨⟨[0, 1, 2], 9 / 10, 0⟩, List.mem_cons_self, fun z hz => ?_⟩
    rw [List.mem_singleton.mp hz]
    decide +kernel
  · obtain ⟨rfl, hrest⟩ := List.cons.inj hsplit
    rcases before with - | ⟨y, before⟩
    · obtain ⟨rfl, rfl⟩ := List.cons.inj hrest
      have hidle : ∀ s ∈ run (iteration rational (line 3) plain) (start rational [2, 0, 1])
          [⟨[1, 0, 2], 0, 0⟩], Idle rational (line 3) plain s ⟨[0, 1, 2], 9 / 10, 0⟩ := by
        decide +kernel
      exact .inr fun s hs => hidle s hs
    · simp at hrest

/-- Three cities on a line: the sampled tour 0, 1, 2 has length 2, and the exchange at position 0
makes it the tour 1, 0, 2 of length 3. -/
theorem ant_loses_best :
    (∀ path, path.Perm (List.range 3) → lineDistance path < rational.max) ∧
      ant rational (line 3) plain [2, 0, 1] [⟨[0, 1, 2], 0, 0⟩] = some [1, 0, 2] ∧
      ¬ lineDistance [1, 0, 2] ≤ lineDistance [0, 1, 2] := by
  refine ⟨fun path hpath => ?_, by decide +kernel, by decide +kernel⟩
  have hall : ∀ p ∈ (List.range 3).permutations', lineDistance p < rational.max := by
    decide +kernel
  exact hall path (List.mem_permutations'.mpr hpath)

end CppExamples.Practice.AntColony
