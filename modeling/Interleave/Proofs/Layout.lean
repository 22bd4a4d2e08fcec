/-
# The layout of a cluster

Groups take places one after another, in the order in which their roles were
first registered. Written out, a layout is the list that names for each place the
group that owns it (`Registry.owners`). The number of nodes, the role of every
address, the addresses of a role and the factory that serves an address are four
walks over the groups, each with a running sum of its own; all of them read this
one list (`Registry.addressing_agrees`).

A registration keeps the place of its role and takes over its group, so after any
sequence of registrations the registry has one group a role, the latest one
(`Registry.latest?_eq`).
-/
import Interleave.Proofs.Clock
import Interleave.Registry.Word
import Mathlib.Data.List.Induction
import Mathlib.Data.List.Nodup

namespace Interleave

namespace Registry

variable {σ : Type} {t : Role} {g h : Group σ} {groups : List (Group σ)}

/-! ### The owner of a place -/

/-- The group that owns each place. -/
def owners (groups : List (Group σ)) : List (Group σ) :=
  groups.flatMap fun g => List.replicate g.count g

theorem placesOf_cons (g : Group σ) (rest : List (Group σ)) :
    placesOf (g :: rest) = g.count + placesOf rest := rfl

theorem length_owners : ∀ groups : List (Group σ), (owners groups).length = placesOf groups
  | [] => rfl
  | g :: rest => by
    rw [owners, List.flatMap_cons, List.length_append, List.length_replicate, placesOf_cons]
    exact congrArg (g.count + ·) (length_owners rest)

theorem getElem?_owners_cons (g : Group σ) (rest : List (Group σ)) (i : Nat) :
    (owners (g :: rest))[i]? = if i < g.count then some g else (owners rest)[i - g.count]? := by
  rw [owners, List.flatMap_cons, List.getElem?_append, List.length_replicate]
  split
  · rename_i hi
    rw [List.getElem?_replicate, if_pos hi]
  · rfl

theorem mem_of_mem_owners (hmem : g ∈ owners groups) : g ∈ groups := by
  obtain ⟨h, hh, hg⟩ := List.mem_flatMap.mp hmem
  rw [List.eq_of_mem_replicate hg]
  exact hh

theorem roles_eq (r : Registry σ) : r.roles = (owners r.groups).map Group.role := by
  simp [roles, owners, List.map_flatMap]

theorem length_roles (r : Registry σ) : r.roles.length = r.size := by
  rw [roles_eq, List.length_map, length_owners]
  rfl

theorem groupFrom_eq : ∀ (groups : List (Group σ)) (start i : Nat),
    groupFrom (start + i) start groups = (owners groups)[i]?
  | [], _, _ => rfl
  | g :: rest, start, i => by
    rw [groupFrom, getElem?_owners_cons]
    by_cases hi : i < g.count
    · rw [if_pos hi, if_pos (by omega)]
    · rw [if_neg hi, if_neg (by omega), ← groupFrom_eq rest (start + g.count)]
      congr 1
      omega

theorem groupOf?_eq (r : Registry σ) (v : NodeId) : r.groupOf? v = (owners r.groups)[v.index]? := by
  have hgroup := groupFrom_eq r.groups 0 v.index
  rwa [Nat.zero_add] at hgroup

/-- An instance can be made at every address of the cluster. -/
theorem spawn?_isSome {r : Registry σ} {v : NodeId} (hv : v.index < r.size) (earlier : Nat) :
    (r.spawn? v earlier).isSome = true := by
  rw [spawn?, Option.isSome_map, groupOf?_eq, List.getElem?_eq_getElem (by rwa [length_owners])]
  rfl

/-! ### The addresses of a role -/

/-- The walk that hands out addresses finds the places of a role, if no other group has it. -/
theorem addressesFrom_eq (t : Role) : ∀ {groups : List (Group σ)}, (groups.map Group.role).Nodup →
    ∀ start, addressesFrom t start groups =
      ((List.range (placesOf groups)).filter fun i =>
        ((owners groups)[i]?).map Group.role = some t).map fun i => NodeId.ofIndex (start + i)
  | [], _, _ => rfl
  | g :: rest, hnodup, start => by
    obtain ⟨hnew, hrest⟩ := List.nodup_cons.mp hnodup
    have hown : ∀ i ∈ List.range g.count, ((owners (g :: rest))[i]?).map Group.role = some g.role := by
      intro i hi
      rw [getElem?_owners_cons, if_pos (List.mem_range.mp hi)]
      rfl
    have hlater : ∀ i, (owners (g :: rest))[g.count + i]? = (owners rest)[i]? := by
      intro i
      rw [getElem?_owners_cons, if_neg (by omega), Nat.add_sub_cancel_left]
    rw [addressesFrom, placesOf_cons, List.range_add, List.filter_append, List.filter_map,
      List.map_append, List.map_map]
    simp only [Function.comp_def, hlater]
    split
    · rename_i hrole
      -- the places of the group, and none after them
      rw [List.filter_eq_self.mpr fun i hi => by simpa [hrole] using hown i hi,
        List.filter_eq_nil_iff.mpr fun i _ hi => ?_]
      · simp
      · obtain ⟨h, hh, hrole'⟩ := Option.map_eq_some_iff.mp (of_decide_eq_true hi)
        have hmem := mem_of_mem_owners (List.mem_of_getElem? hh)
        exact hnew (List.mem_map.mpr ⟨h, hmem, hrole'.trans hrole.symm⟩)
    · rename_i hrole
      rw [List.filter_eq_nil_iff.mpr fun i hi hi' => hrole ?_, addressesFrom_eq t hrest]
      · simp [Nat.add_assoc]
      · have heq := (hown i hi).symm.trans (of_decide_eq_true hi')
        exact Option.some.inj heq

/-- The addresses of a role follow each other. -/
theorem addressesFrom_contiguous : ∀ {groups : List (Group σ)}, (groups.map Group.role).Nodup →
    g ∈ groups → ∀ start, ∃ first, first + g.count ≤ start + placesOf groups ∧
      addressesFrom g.role start groups = (List.range g.count).map fun i => NodeId.ofIndex (first + i)
  | h :: rest, hnodup, hg, start => by
    obtain ⟨hnew, hrest⟩ := List.nodup_cons.mp hnodup
    rw [addressesFrom, placesOf_cons]
    rcases List.mem_cons.mp hg with rfl | hg
    · exact ⟨start, by omega, if_pos rfl⟩
    · have hne : h.role ≠ g.role := fun heq => hnew (heq ▸ List.mem_map_of_mem hg)
      obtain ⟨first, hbound, haddresses⟩ := addressesFrom_contiguous hrest hg (start + h.count)
      exact ⟨first, by omega, (if_neg hne).trans haddresses⟩

theorem addressesFrom_of_notMem : ∀ {groups : List (Group σ)}, t ∉ groups.map Group.role →
    ∀ start, addressesFrom t start groups = []
  | [], _, _ => rfl
  | g :: rest, hnew, start => by
    rw [List.map_cons, List.mem_cons, not_or] at hnew
    rw [addressesFrom, if_neg fun heq => hnew.1 heq.symm]
    exact addressesFrom_of_notMem hnew.2 _

/-- One role after another, all places are handed out. -/
theorem flatMap_addressesFrom : ∀ {groups : List (Group σ)}, (groups.map Group.role).Nodup →
    ∀ start, (groups.map Group.role).flatMap (addressesFrom · start groups) =
      (List.range (placesOf groups)).map fun i => NodeId.ofIndex (start + i)
  | [], _, _ => rfl
  | g :: rest, hnodup, start => by
    obtain ⟨hnew, hrest⟩ := List.nodup_cons.mp hnodup
    have hfirst : addressesFrom g.role start (g :: rest) =
        (List.range g.count).map fun i => NodeId.ofIndex (start + i) := by
      rw [addressesFrom, if_pos rfl]
    have hlater : (rest.map Group.role).flatMap (addressesFrom · start (g :: rest)) =
        (rest.map Group.role).flatMap (addressesFrom · (start + g.count) rest) := by
      refine List.flatMap_congr fun t ht => ?_
      have hne : g.role ≠ t := fun heq => hnew (heq ▸ ht)
      exact if_neg hne
    rw [List.map_cons, List.flatMap_cons, hfirst, hlater, flatMap_addressesFrom hrest, placesOf_cons,
      List.range_add, List.map_append, List.map_map]
    simp [Function.comp_def, Nat.add_assoc]

/-! ### Registering -/

/-- The last group of a role among those registered. -/
def latest? (registered : List (Group σ)) (t : Role) : Option (Group σ) :=
  registered.reverse.find? (·.role = t)

theorem roles_registerIn (g : Group σ) : ∀ groups : List (Group σ),
    (registerIn g groups).map Group.role =
      if g.role ∈ groups.map Group.role then groups.map Group.role
      else groups.map Group.role ++ [g.role]
  | [] => rfl
  | h :: rest => by
    rw [registerIn]
    by_cases hrole : h.role = g.role
    · simp [hrole]
    · have hmem : g.role ∈ (h :: rest).map Group.role ↔ g.role ∈ rest.map Group.role := by
        rw [List.map_cons, List.mem_cons, or_iff_right fun heq => hrole heq.symm]
      rw [if_neg hrole, List.map_cons, roles_registerIn g rest]
      simp only [hmem]
      split <;> rfl

theorem find?_registerIn (g : Group σ) (t : Role) : ∀ groups : List (Group σ),
    (registerIn g groups).find? (·.role = t) =
      if g.role = t then some g else groups.find? (·.role = t)
  | [] => by
    rw [registerIn, List.find?_cons]
    split <;> simp_all
  | h :: rest => by
    rw [registerIn]
    by_cases hrole : h.role = g.role
    · rw [if_pos hrole, List.find?_cons, List.find?_cons, hrole]
      by_cases hg : g.role = t <;> simp [hg]
    · rw [if_neg hrole, List.find?_cons, List.find?_cons, find?_registerIn g t rest]
      by_cases hh : h.role = t
      · have hg : g.role ≠ t := fun heq => hrole (hh.trans heq.symm)
        simp [hh, hg]
      · simp [hh]

theorem groups_register_concat (registered : List (Group σ)) (g : Group σ) :
    ((registered ++ [g]).foldl register empty).groups =
      registerIn g (registered.foldl register empty).groups := by
  rw [List.foldl_append]
  rfl

theorem eraseDups_concat (l : List Role) (t : Role) :
    (l ++ [t]).eraseDups = if t ∈ l then l.eraseDups else l.eraseDups ++ [t] := by
  rw [List.eraseDups_append]
  by_cases ht : t ∈ l
  · simp [List.removeAll, ht]
  · rw [if_neg ht, show [t].removeAll l = [t] by simp [List.removeAll, ht]]
    rfl

/-- The roles keep the order in which they were first registered. -/
theorem roles_foldl_register (registered : List (Group σ)) :
    (registered.foldl register empty).groups.map Group.role =
      (registered.map Group.role).eraseDups := by
  induction registered using List.reverseRecOn with
  | nil => rfl
  | append_singleton registered g ih =>
    rw [groups_register_concat, roles_registerIn, ih, List.map_append, List.map_singleton,
      eraseDups_concat]
    simp only [List.mem_eraseDups]

theorem nodup_foldl_register (registered : List (Group σ)) :
    ((registered.foldl register empty).groups.map Group.role).Nodup := by
  induction registered using List.reverseRecOn with
  | nil => exact List.nodup_nil
  | append_singleton registered g ih =>
    rw [groups_register_concat, roles_registerIn]
    split
    · exact ih
    · rename_i hnew
      exact List.nodup_append.mpr ⟨ih, List.nodup_singleton _, fun t ht t' ht' heq => hnew (by
        rwa [← List.mem_singleton.mp ht', ← heq])⟩

/-- The registry holds of each role the latest group. -/
theorem latest?_eq (registered : List (Group σ)) (t : Role) :
    (registered.foldl register empty).groups.find? (·.role = t) = latest? registered t := by
  induction registered using List.reverseRecOn with
  | nil => rfl
  | append_singleton registered g ih =>
    rw [groups_register_concat, find?_registerIn, ih, latest?, latest?, List.reverse_append,
      List.reverse_singleton, List.singleton_append, List.find?_cons]
    by_cases hrole : g.role = t <;> simp [hrole]

/-- A group is the latest of its role if it is in the registry. -/
theorem latest?_of_mem {registered : List (Group σ)}
    (hg : g ∈ (registered.foldl register empty).groups) : latest? registered g.role = some g := by
  rw [← latest?_eq]
  have hnodup := nodup_foldl_register registered
  obtain ⟨before, after, hsplit⟩ := List.append_of_mem hg
  rw [hsplit, List.map_append, List.map_cons] at hnodup
  refine List.find?_eq_some_iff_append.mpr ⟨decide_eq_true rfl, before, after, hsplit, fun h hh => ?_⟩
  have hne : h.role ≠ g.role :=
    (List.nodup_append.mp hnodup).2.2 _ (List.mem_map_of_mem hh) _ List.mem_cons_self
  simpa using hne

/-- The owner of a place is the latest group of the role at this place. -/
theorem groupOf?_foldl_register (registered : List (Group σ)) (v : NodeId) :
    (registered.foldl register empty).groupOf? v =
      ((registered.foldl register empty).roles[v.index]?).bind (latest? registered) := by
  rw [groupOf?_eq, roles_eq, List.getElem?_map]
  cases hg : (owners (registered.foldl register empty).groups)[v.index]? with
  | none => rfl
  | some g => exact (latest?_of_mem (mem_of_mem_owners (List.mem_of_getElem? hg))).symm

/-! ### Counting in words -/

theorem placesOf_groupsThrough_le (t : Role) : ∀ groups : List (Group σ),
    placesOf (groupsThrough t groups) ≤ placesOf groups
  | [] => Nat.le_refl _
  | g :: rest => by
    have hrest := placesOf_groupsThrough_le t rest
    rw [groupsThrough, placesOf_cons]
    split
    · rw [placesOf_cons]
      exact Nat.add_le_add_left (Nat.zero_le _) _
    · rw [placesOf_cons]
      exact Nat.add_le_add_left hrest _

theorem groupEnd_le (index : Nat) : ∀ (groups : List (Group σ)) (start : Nat),
    groupEnd index start groups ≤ start + placesOf groups
  | [], _ => Nat.le_refl _
  | g :: rest, start => by
    have hrest := groupEnd_le index rest (start + g.count)
    rw [groupEnd, placesOf_cons]
    split <;> omega

theorem count_le_placesOf : ∀ {groups : List (Group σ)}, g ∈ groups → g.count ≤ placesOf groups
  | h :: rest, hg => by
    rcases List.mem_cons.mp hg with rfl | hg
    · exact Nat.le_add_right _ _
    · exact Nat.le_trans (count_le_placesOf hg) (Nat.le_add_left _ _)

section

variable {r : Registry σ} (hsize : r.size ≤ UInt32.size)

include hsize

theorem word_of_le {n : Nat} (hn : n ≤ r.size) : word n = .ok n :=
  if_pos (Nat.lt_of_le_of_lt (Nat.le_trans hn hsize) (by decide))

theorem holds_of_le {bytes n : Nat} (hbytes : bytes ≤ 16) (hn : n ≤ r.size) : holds bytes n = true := by
  have hproduct : bytes * n ≤ 16 * UInt32.size := Nat.mul_le_mul hbytes (Nat.le_trans hn hsize)
  exact decide_eq_true (Nat.le_trans hproduct (by decide))

theorem wordSize_eq : r.wordSize = .ok r.size := word_of_le hsize (Nat.le_refl _)

theorem listRoles_eq : r.listRoles = .ok r.roles := by
  unfold listRoles
  rw [wordSize_eq hsize]
  exact if_pos (holds_of_le hsize (Nat.le_refl _) (Nat.le_refl _))

theorem listAddresses_eq (t : Role) : r.listAddresses t = .ok (r.addresses t) := by
  have hcount : r.countOf t ≤ r.size := by
    unfold countOf
    cases hg : r.groups.find? (·.role = t) with
    | none => exact Nat.zero_le _
    | some g => exact count_le_placesOf (List.mem_of_find?_eq_some hg)
  unfold listAddresses
  rw [word_of_le hsize (placesOf_groupsThrough_le t r.groups)]
  exact if_pos (holds_of_le hsize (by decide) hcount)

theorem create_eq (v : NodeId) (earlier : Nat) : r.create v earlier = .ok (r.spawn? v earlier) := by
  have hend : groupEnd v.index 0 r.groups ≤ r.size :=
    Nat.le_trans (groupEnd_le v.index r.groups 0) (Nat.le_of_eq (Nat.zero_add _))
  unfold create
  rw [word_of_le hsize hend]
  rfl

end

/-! ### Agreement -/

theorem map_index_ofIndex {places : List Nat} (h : ∀ i ∈ places, i < UInt32.size) :
    (places.map NodeId.ofIndex).map NodeId.index = places := by
  rw [List.map_map]
  exact (List.map_congr_left fun i hi => NodeId.index_ofIndex (h i hi)).trans (List.map_id _)

section

variable {r : Registry σ} (hnodup : (r.groups.map Group.role).Nodup) (hsize : r.size ≤ UInt32.size)

include hnodup hsize

/-- A role is addressed where it stands in the list of roles. -/
theorem index_addresses (t : Role) : (r.addresses t).map NodeId.index =
    (List.range r.roles.length).filter fun i => r.roles[i]? = some t := by
  have haddresses := addressesFrom_eq t hnodup 0
  simp only [Nat.zero_add] at haddresses
  rw [addresses, haddresses, map_index_ofIndex fun i hi => ?_, length_roles]
  · simp only [roles_eq, List.getElem?_map]
    rfl
  · exact Nat.lt_of_lt_of_le (List.mem_range.mp (List.mem_filter.mp hi).1) hsize

theorem exists_index_addresses (hg : g ∈ r.groups) :
    ∃ first, (r.addresses g.role).map NodeId.index = List.range' first g.count := by
  obtain ⟨first, hbound, haddresses⟩ := addressesFrom_contiguous hnodup hg 0
  refine ⟨first, ?_⟩
  have hplaces : r.addresses g.role = (List.range' first g.count).map NodeId.ofIndex := by
    rw [addresses, haddresses, List.range'_eq_map_range, List.map_map]
    rfl
  rw [hplaces, map_index_ofIndex fun i hi => ?_]
  have hlast := (List.mem_range'_1.mp hi).2
  have htotal : r.size = placesOf r.groups := rfl
  omega

theorem flatMap_index_addresses :
    ((r.groups.map Group.role).flatMap fun t => (r.addresses t).map NodeId.index) =
      List.range r.size := by
  have hall := flatMap_addressesFrom hnodup 0
  simp only [Nat.zero_add] at hall
  rw [← List.map_flatMap]
  show List.map NodeId.index ((r.groups.map Group.role).flatMap (addressesFrom · 0 r.groups)) = _
  rw [hall]
  exact map_index_ofIndex fun i hi => Nat.lt_of_lt_of_le (List.mem_range.mp hi) hsize

end

/-- **All questions about addresses have one layout for an answer**, after any registrations that
come to as many nodes as there are addresses at most. Every question is answered. The addresses of
a role are, in ascending order, the places at which the list of roles names it; they follow each
other, as many as the latest registration asks for; and role after role, in the order of the first
registrations, they are all the places. An instance can be made at these places and nowhere else,
and the latest factory of the role there makes it. -/
theorem addressing_agrees (registered : List (Group σ))
    (hsize : (registered.foldl register empty).size ≤ UInt32.size) :
    let r := registered.foldl register empty
    ∃ (roles : List Role) (addresses : Role → List NodeId) (made : NodeId → Nat → Option σ),
      r.listRoles = .ok roles ∧ r.wordSize = .ok roles.length ∧
      (∀ t, r.listAddresses t = .ok (addresses t)) ∧
      (∀ v earlier, r.create v earlier = .ok (made v earlier)) ∧
      (∀ t, (addresses t).map NodeId.index =
        (List.range roles.length).filter fun i => roles[i]? = some t) ∧
      (∀ t, ∃ first, (addresses t).map NodeId.index =
        List.range' first ((latest? registered t).elim 0 Group.count)) ∧
      ((registered.map Group.role).eraseDups.flatMap fun t => (addresses t).map NodeId.index) =
        List.range roles.length ∧
      (∀ v earlier, (made v earlier).isSome = true ↔ v.index < roles.length) ∧
      ∀ v earlier t, roles[v.index]? = some t →
        made v earlier = (latest? registered t).map fun g => g.make v earlier := by
  intro r
  have hnodup : (r.groups.map Group.role).Nodup := nodup_foldl_register registered
  have hlength : r.roles.length = r.size := r.length_roles
  refine ⟨r.roles, r.addresses, r.spawn?, listRoles_eq hsize, hlength ▸ wordSize_eq hsize,
    listAddresses_eq hsize, create_eq hsize, index_addresses hnodup hsize, fun t => ?_, ?_,
    fun v earlier => ⟨fun hmade => ?_, fun hv => ?_⟩, fun v earlier t ht => ?_⟩
  · cases hlatest : latest? registered t with
    | none =>
      have hnone : t ∉ r.groups.map Group.role := fun hmem => by
        obtain ⟨g, hg, rfl⟩ := List.mem_map.mp hmem
        cases (latest?_of_mem hg).symm.trans hlatest
      exact ⟨0, by rw [addresses, addressesFrom_of_notMem hnone]; rfl⟩
    | some g =>
      rw [← latest?_eq] at hlatest
      obtain rfl : g.role = t := by simpa using List.find?_some hlatest
      exact exists_index_addresses hnodup hsize (List.mem_of_find?_eq_some hlatest)
  · rw [← roles_foldl_register, hlength]
    exact flatMap_index_addresses hnodup hsize
  · rw [spawn?, Option.isSome_map, groupOf?_eq] at hmade
    obtain ⟨g, hg⟩ := Option.isSome_iff_exists.mp hmade
    rw [roles_eq, List.length_map]
    exact (List.getElem?_eq_some_iff.mp hg).1
  · exact spawn?_isSome (hlength ▸ hv) earlier
  · have howner : r.groupOf? v = latest? registered t :=
      (groupOf?_foldl_register registered v).trans (congrArg (·.bind (latest? registered)) ht)
    rw [spawn?, howner]

/-- The servers are registered again with one node less and another factory, and the spare role has no
node: the clients move up, and the server there is comes from the second factory. -/
theorem addressing_agrees_again :
    let server : Role := ⟨"server"⟩
    let client : Role := ⟨"client"⟩
    let registered : List (Group String) := [⟨server, 2, fun _ _ => "old"⟩, ⟨⟨"spare"⟩, 0, fun _ _ => ""⟩,
      ⟨client, 3, fun _ _ => "client"⟩, ⟨server, 1, fun _ _ => "new"⟩]
    let r := registered.foldl register empty
    r.listRoles = .ok [server, client, client, client] ∧
      r.listAddresses client = .ok [⟨1⟩, ⟨2⟩, ⟨3⟩] ∧
      (∀ earlier, r.create ⟨0⟩ earlier = .ok (some "new")) ∧
      ∀ v earlier, r.create v earlier = .ok none ↔ 4 ≤ v.index := by
  intro server client registered r
  obtain ⟨roles, addresses, made, hroles, -, -, hcreate, -, -, -, hmade, hlatest⟩ :=
    addressing_agrees registered (by decide)
  have heq : roles = [server, client, client, client] := Except.ok.inj (hroles.symm.trans rfl)
  subst heq
  refine ⟨rfl, rfl, fun earlier => ?_, fun v earlier => ?_⟩
  · rw [hcreate, hlatest ⟨0⟩ earlier server rfl]
    rfl
  · rw [hcreate, Except.ok.injEq, ← Option.not_isSome_iff_eq_none, hmade]
    exact Nat.not_lt

end Registry

end Interleave
