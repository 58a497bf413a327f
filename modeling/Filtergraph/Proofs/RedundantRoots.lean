import Filtergraph.Proofs.Agreement
import Filtergraph.Proofs.History

/-!
# Roots that do not matter

Roots are taken once each, and a root that another one leads to is dropped. So a list of roots
may be padded: with nodes that its roots lead to, and with roots that it names before.

What a root list leads to is not changed by padding. Hence the two walks, from the list and from
the padded list, record readers for the same nodes, though in another order, and the same roots
have none. The roots that remain stand in the same order in both lists, and all that a
compilation does after its first check depends on them alone.
-/

namespace Filtergraph

open Filtergraph.Graph

/-- The list has the given roots in their order. Between them stand nodes that the list leads to
by at least one slot, and roots that stand further in front. -/
inductive Padded (g : Graph) (roots : List NodeId) : List NodeId → Prop where
  | refl : Padded g roots roots
  | interior (front back : List NodeId) {root x : NodeId} (h : Padded g roots (front ++ back))
    (hroot : root ∈ front ++ back) (hpath : Relation.TransGen g.Reads root x) :
    Padded g roots (front ++ x :: back)
  | again (front back : List NodeId) {x : NodeId} (h : Padded g roots (front ++ back))
    (hx : x ∈ front) : Padded g roots (front ++ x :: back)

variable {g : Graph} {roots front back : List NodeId} {x : NodeId}

/-! ## What is reached -/

theorem reached_insert (hx : g.Reached (front ++ back) x) (y : NodeId) :
    g.Reached (front ++ x :: back) y ↔ g.Reached (front ++ back) y := by
  constructor
  · rintro ⟨root, hroot, hpath⟩
    -- what the new root leads to, its own root led to before
    rcases List.mem_cons.mp (List.perm_middle.mem_iff.mp hroot) with rfl | hroot
    · obtain ⟨top, htop, hdown⟩ := hx
      exact ⟨top, htop, hdown.trans hpath⟩
    · exact ⟨root, hroot, hpath⟩
  · rintro ⟨root, hroot, hpath⟩
    exact ⟨root, List.perm_middle.mem_iff.mpr (List.mem_cons_of_mem _ hroot), hpath⟩

/-- **Padding leads nowhere else.** -/
theorem Padded.reached_iff {longer : List NodeId} (h : Padded g roots longer) (y : NodeId) :
    g.Reached longer y ↔ g.Reached roots y := by
  induction h with
  | refl => exact Iff.rfl
  | interior _ _ _ hroot hpath ih =>
    exact (reached_insert ⟨_, hroot, hpath.to_reflTransGen⟩ y).trans ih
  | again _ _ _ hx ih => exact (reached_insert (.root (List.mem_append_left _ hx)) y).trans ih

/-! ## What is left of the roots -/

/-- A walk that reaches as much as another leaves the same nodes unread. -/
theorem Readers.unread_eq {r r' : Readers} {roots' : List NodeId}
    (hr : Readers.build g roots.eraseDups = .ok r) (hr' : Readers.build g roots'.eraseDups = .ok r')
    (hsame : ∀ y, g.Reached roots' y ↔ g.Reached roots y) (l : List NodeId) :
    r'.unread l = r.unread l := by
  obtain ⟨order, hs⟩ := Readers.surveys_of_build hr
  obtain ⟨order', hs'⟩ := Readers.surveys_of_build hr'
  have horder : ∀ c, c ∈ order' ↔ c ∈ order := by
    intro c
    rw [hs'.mem_iff, hs.mem_iff, reached_eraseDups_iff, reached_eraseDups_iff, hsame]
  refine List.filter_congr fun y _ => ?_
  have hread : 0 < r'.count y ↔ 0 < r.count y := by
    simp only [hs'.count_pos_iff, hs.count_pos_iff, horder]
  rw [decide_eq_decide]
  omega

/-- A node that something reached reads is not among the roots that are left. -/
theorem Readers.unread_insert {r : Readers} (h : r.count x ≠ 0 ∨ x ∈ front) :
    r.unread (front ++ x :: back) = r.unread (front ++ back) := by
  unfold Readers.unread
  rcases h with hread | hx
  · rw [filter_eraseDups, filter_eraseDups, List.filter_append, List.filter_append,
      List.filter_cons_of_neg (by simpa using hread)]
  · rw [eraseDups_insert hx]

theorem exists_build_eraseDups (hwf : g.WellFormed) {l : List NodeId}
    (hknown : ∀ root ∈ roots, ∃ n, g.node? root = some n)
    (hacyclic : ∀ y, g.Reached roots y → ¬ g.OnCycle y)
    (hsub : ∀ y, g.Reached l y → g.Reached roots y) :
    ∃ r, Readers.build g l.eraseDups = .ok r := by
  refine Readers.exists_build (fun y hy => ?_) fun y hy => ?_
  · exact hwf.node?_of_reached hknown (hsub y (reached_eraseDups_iff.mp hy))
  · exact hacyclic y (hsub y (reached_eraseDups_iff.mp hy))

/-- **One more root that does not matter.** -/
theorem finalRoots_insert (hwf : g.WellFormed) (ms : List Mapping)
    (hacyclic : ∀ y, g.Reached (front ++ back) y → ¬ g.OnCycle y)
    (hx : (∃ c, g.Reached (front ++ back) c ∧ g.Reads c x) ∨ x ∈ front) :
    finalRoots g ms (front ++ x :: back) = finalRoots g ms (front ++ back) := by
  have hreached : g.Reached (front ++ back) x := by
    rcases hx with ⟨c, hc, hr⟩ | hx
    · exact hc.reads hr
    · exact .root (List.mem_append_left _ hx)
  have hsame := reached_insert hreached
  have hne : (front ++ back).isEmpty = false := by
    obtain ⟨root, hroot, _⟩ := hreached
    rw [List.isEmpty_eq_false_iff]
    exact List.ne_nil_of_mem hroot
  -- the new root exists, so the check of the roots passes it by
  have hchecked : ((front ++ x :: back).forM fun root => (g.find root).map fun _ => ())
      = (front ++ back).forM fun root => (g.find root).map fun _ => () := by
    refine forM_insert fun hfront => ?_
    rcases hx with ⟨c, _, hr⟩ | hx
    · exact known_eq_ok.mpr (hwf.node?_of_reads hr)
    · exact forM_eq_ok.mp hfront x hx
  rw [finalRoots_eq, finalRoots_eq, hchecked, hne, if_neg (by simp), if_neg (by simp)]
  cases hall : (front ++ back).forM fun root => (g.find root).map fun _ => () with
  | error e => rfl
  | ok u =>
    -- all roots exist and no cycle is reached, so both walks come to an end
    have hknown : ∀ root ∈ front ++ back, ∃ n, g.node? root = some n :=
      fun root hroot => known_eq_ok.mp (forM_eq_ok.mp hall root hroot)
    obtain ⟨r, hr⟩ := exists_build_eraseDups hwf hknown hacyclic fun _ hy => hy
    obtain ⟨r', hr'⟩ := exists_build_eraseDups hwf hknown hacyclic fun y => (hsame y).mp
    have hunread : r'.unread (front ++ x :: back) = r.unread (front ++ back) := by
      rw [Readers.unread_eq hr hr' hsame]
      refine Readers.unread_insert (hx.imp_left ?_)
      rintro ⟨c, hc, hread⟩
      obtain ⟨order, hs⟩ := Readers.surveys_of_build hr
      have hin : c ∈ order := (hs.mem_iff c).mpr (reached_eraseDups_iff.mpr hc)
      have hpos := hs.count_pos_iff.mpr ⟨c, hin, hread⟩
      omega
    rw [hr, hr', Except.map, Except.map, hunread]

/-- **The first check takes padded roots for the roots.** -/
theorem Padded.finalRoots_eq (hwf : g.WellFormed) (ms : List Mapping)
    (hacyclic : ∀ y, g.Reached roots y → ¬ g.OnCycle y) {longer : List NodeId}
    (h : Padded g roots longer) : finalRoots g ms longer = finalRoots g ms roots := by
  induction h with
  | refl => rfl
  | interior front back h hroot hpath ih =>
    obtain ⟨c, hdown, hr⟩ := Relation.TransGen.tail'_iff.mp hpath
    rw [finalRoots_insert hwf ms (fun y hy => hacyclic y ((h.reached_iff y).mp hy))
      (.inl ⟨c, ⟨_, hroot, hdown⟩, hr⟩), ih]
  | again front back h hx ih =>
    rw [finalRoots_insert hwf ms (fun y hy => hacyclic y ((h.reached_iff y).mp hy)) (.inr hx), ih]

/-! ## Compilations -/

/-- A compilation looks at its roots in the first check only. -/
theorem compile_eq_of_finalRoots {job : Job} {roots' : List NodeId}
    (h : finalRoots g job.mappings roots' = finalRoots g job.mappings roots) :
    job.compile roots' g = job.compile roots g := by
  refine bind_eq_bind (bind_eq_bind ?_)
  unfold consult
  dsimp only
  rw [h]

/-- **Roots that do not matter.** From roots that lead to no cycle, a padded list of roots gives
the same command or error and leaves the same graph. -/
theorem compile_padded (hg : Reachable g) (job : Job)
    (hacyclic : ∀ x, g.Reached roots x → ¬ g.OnCycle x) {longer : List NodeId}
    (h : Padded g roots longer) : job.compile longer g = job.compile roots g :=
  compile_eq_of_finalRoots (h.finalRoots_eq hg.wellFormed job.mappings hacyclic)

/-- The merge is compiled for the second time, now with the filter that it reads in front of it,
the media file behind it, and both roots named again. -/
theorem compile_padded_again : Reachable interleavedOnce ∧
    (∀ x, interleavedOnce.Reached [⟨3⟩] x → ¬ interleavedOnce.OnCycle x) ∧
    Padded interleavedOnce [⟨3⟩] [⟨1⟩, ⟨3⟩, ⟨0⟩, ⟨3⟩, ⟨1⟩] ∧
    ∃ cmd g',
      Job.compile { destination := "out.mp4" } [⟨1⟩, ⟨3⟩, ⟨0⟩, ⟨3⟩, ⟨1⟩] interleavedOnce
        = .ok cmd g' ∧
      Job.compile { destination := "out.mp4" } [⟨3⟩] interleavedOnce = .ok cmd g' := by
  have hbuild : Readers.build interleavedOnce [⟨3⟩] = .ok ⟨[⟨⟨5⟩, ⟨3⟩⟩, ⟨⟨1⟩, ⟨5⟩⟩, ⟨⟨4⟩, ⟨1⟩⟩,
      ⟨⟨0⟩, ⟨4⟩⟩, ⟨⟨2⟩, ⟨3⟩⟩, ⟨⟨5⟩, ⟨2⟩⟩, ⟨⟨5⟩, ⟨3⟩⟩]⟩ := by decide +kernel
  obtain ⟨order, hs⟩ := Readers.surveys_of_build hbuild
  have hacyclic : ∀ x, interleavedOnce.Reached [⟨3⟩] x → ¬ interleavedOnce.OnCycle x :=
    fun x hx => hs.settled.not_onCycle ((hs.mem_iff x).mpr hx)
  have hslots : interleavedOnce.inputs ⟨3⟩ = [⟨⟨5⟩, 0⟩, ⟨⟨2⟩, 0⟩, ⟨⟨5⟩, 2⟩] ∧
      interleavedOnce.inputs ⟨5⟩ = [⟨⟨1⟩, 0⟩] ∧ interleavedOnce.inputs ⟨1⟩ = [⟨⟨4⟩, 0⟩] ∧
      interleavedOnce.inputs ⟨4⟩ = [⟨⟨0⟩, 0⟩] := by decide +kernel
  obtain ⟨hmerge, hsplit, hfilter, hselector⟩ := hslots
  have hpath : Relation.TransGen interleavedOnce.Reads ⟨3⟩ ⟨1⟩ :=
    .tail (.single ⟨⟨⟨5⟩, 0⟩, by simp [hmerge], rfl⟩) ⟨⟨⟨1⟩, 0⟩, by simp [hsplit], rfl⟩
  have hdown : Relation.TransGen interleavedOnce.Reads ⟨3⟩ ⟨0⟩ :=
    .tail (.tail hpath ⟨⟨⟨4⟩, 0⟩, by simp [hfilter], rfl⟩) ⟨⟨⟨0⟩, 0⟩, by simp [hselector], rfl⟩
  have hpadded : Padded interleavedOnce [⟨3⟩] [⟨1⟩, ⟨3⟩, ⟨0⟩, ⟨3⟩, ⟨1⟩] := by
    have h₁ : Padded interleavedOnce [⟨3⟩] [⟨1⟩, ⟨3⟩] :=
      .interior [] [⟨3⟩] .refl (by simp) hpath
    have h₂ : Padded interleavedOnce [⟨3⟩] [⟨1⟩, ⟨3⟩, ⟨0⟩] :=
      .interior [⟨1⟩, ⟨3⟩] [] h₁ (by simp) hdown
    have h₃ : Padded interleavedOnce [⟨3⟩] [⟨1⟩, ⟨3⟩, ⟨0⟩, ⟨3⟩] :=
      .again [⟨1⟩, ⟨3⟩, ⟨0⟩] [] h₂ (by simp)
    exact .again [⟨1⟩, ⟨3⟩, ⟨0⟩, ⟨3⟩] [] h₃ (by simp)
  obtain ⟨cmd, g', hok⟩ := Change.exists_of_succeeds (x := Job.compile { destination := "out.mp4" }
    [⟨3⟩]) (s := interleavedOnce) (by decide +kernel)
  refine ⟨reachable_interleavedOnce, hacyclic, hpadded, cmd, g', ?_, hok⟩
  rw [compile_padded reachable_interleavedOnce _ hacyclic hpadded, hok]

end Filtergraph
