import Mathlib.Algebra.GroupWithZero.Nat
import GoLabs.Reasoning.Runs
import GoLabs.Tester.Group

/-!
# Connectivity

The ends between the servers of a group, as a matrix of switches.  `ConnectOne` switches on a row
and the connected part of a column, `DisconnectAll` switches off a row and a column.  The row is
switched on whether or not its servers are connected, so the matrix says what `IsConnected` says
only as long as a server is connected last.
-/

open GoLabs.Reasoning

namespace GoLabs.Tester

namespace ServerGrp

variable {n : Nat} {sg sg' : ServerGrp n} {a b i : Fin n}

/-- The end from `a` to `b` is enabled exactly if both servers are connected. -/
def Exact (sg : ServerGrp n) : Prop :=
  ∀ a b, a ≠ b → (sg.link a b = true ↔ sg.isConnected a = true ∧ sg.isConnected b = true)

instance : Decidable sg.Exact := inferInstanceAs (Decidable (∀ _, _))

def OthersConnected (sg : ServerGrp n) (i : Fin n) : Prop := ∀ b, b ≠ i → sg.isConnected b = true

instance : Decidable (sg.OthersConnected i) := inferInstanceAs (Decidable (∀ _, _))

/-! ## Names -/

/-- No two ends of the group have the same name, and the network knows them all. -/
structure Named (sg : ServerGrp n) : Prop where
  injective : ∀ a b a' b', sg.endName a b = sg.endName a' b' → a = a' ∧ b = b'
  mem : ∀ a b, sg.endName a b ∈ sg.net.ends

theorem Named.congr (h : sg.Named) (hname : sg'.endName = sg.endName)
    (hends : sg'.net.ends = sg.net.ends) : sg'.Named := by
  constructor
  · rw [hname]
    exact h.injective
  · rw [hname, hends]
    exact h.mem

theorem Named.endName_eq (h : sg.Named) {a' b' : Fin n} :
    sg.endName a b = sg.endName a' b' ↔ a = a' ∧ b = b' := by
  constructor
  · exact h.injective a b a' b'
  · intro heq
    rw [heq.1, heq.2]

/-! ## Rows and columns -/

theorem isConnected_connectOne :
    (sg.connectOne i).isConnected a = true ↔ a = i ∨ sg.isConnected a = true := by
  unfold connectOne connect isConnected
  rw [getElem_set_fin]
  split <;> simp_all

theorem isConnected_disconnectAll :
    (sg.disconnectAll i).isConnected a = true ↔ a ≠ i ∧ sg.isConnected a = true := by
  unfold disconnectAll disconnect isConnected
  rw [getElem_set_fin]
  split <;> simp_all

/-- The positions of `all` are its servers. -/
theorem mem_zipIdx_all {p : Fin n × Nat} : p ∈ (all n).zipIdx ↔ p.2 = p.1 := by
  obtain ⟨j, k⟩ := p
  rw [List.mem_zipIdx_iff_getElem?]
  simp only [all, List.getElem?_eq_some_iff, List.getElem_finRange, List.length_finRange]
  constructor
  · rintro ⟨_, heq⟩
    simpa using congrArg Fin.val heq
  · intro heq
    subst heq
    exact ⟨j.isLt, by simp⟩

/-! ## One call of `connect` or `disconnect` -/

theorem Named.connect (h : sg.Named) (i : Fin n) (peers : List (Fin n)) :
    (sg.connect i peers).Named := by
  have hends : (sg.connect i peers).net.ends = sg.net.ends := by
    unfold ServerGrp.connect
    rw [Network.ends_foldl, Network.ends_foldl]
  exact h.congr rfl hends

theorem Named.disconnect (h : sg.Named) (i : Fin n) (peers : List (Fin n)) :
    (sg.disconnect i peers).Named := by
  have hends : (sg.disconnect i peers).net.ends = sg.net.ends := by
    unfold ServerGrp.disconnect
    rw [Network.ends_foldl, Network.ends_foldl]
  exact h.congr rfl hends

theorem mem_row (h : sg.Named) {peers : List (Fin n)} :
    sg.endName a b ∈ peers.map (fun j => sg.endName i j) ↔ a = i ∧ b ∈ peers := by
  rw [List.mem_map]
  constructor
  · rintro ⟨j, hj, hname⟩
    obtain ⟨ha, hb⟩ := h.endName_eq.mp hname
    exact ⟨ha.symm, hb ▸ hj⟩
  · rintro ⟨ha, hb⟩
    exact ⟨b, hb, by rw [ha]⟩

theorem mem_column (h : sg.Named) {peers : List (Fin n)} :
    sg.endName a b ∈ peers.map (fun j => sg.endName j i) ↔ b = i ∧ a ∈ peers := by
  rw [List.mem_map]
  constructor
  · rintro ⟨j, hj, hname⟩
    obtain ⟨ha, hb⟩ := h.endName_eq.mp hname
    exact ⟨hb.symm, ha ▸ hj⟩
  · rintro ⟨hb, ha⟩
    exact ⟨a, ha, by rw [hb]⟩

theorem link_disconnect (h : sg.Named) {peers : List (Fin n)} :
    (sg.disconnect i peers).link a b = true ↔
      ¬ (a = i ∧ b ∈ peers) ∧ ¬ (b = i ∧ a ∈ peers) ∧ sg.link a b = true := by
  show (sg.disconnect i peers).net.enabled (sg.endName a b) = true ↔ _
  unfold disconnect link
  rw [Network.enabled_foldl, Network.enabled_foldl]
  simp only [mem_row h, mem_column h]
  split <;> rename_i hcolumn
  · simp [hcolumn]
  · split <;> rename_i hrow
    · simp [hrow]
    · simp [hrow, hcolumn]

theorem mem_all (i : Fin n) : i ∈ all n := List.mem_finRange i

theorem link_connectOne (h : sg.Named) : (sg.connectOne i).link a b = true ↔
    a = i ∨ (b = i ∧ sg.isConnected a = true) ∨ sg.link a b = true := by
  have hrow : sg.endName a b ∈ (all n).map (fun j => sg.endName i j) ↔ a = i := by
    rw [mem_row h, and_iff_left (mem_all b)]
  have hcolumn : sg.endName a b ∈ (((all n).zipIdx.filter fun p =>
      (sg.connected.set i true i.isLt)[p.2]? = some true).map fun p => sg.endName p.1 i) ↔
      b = i ∧ (a = i ∨ sg.isConnected a = true) := by
    rw [List.mem_map]
    constructor
    · rintro ⟨p, hp, hname⟩
      obtain ⟨hmem, hconn⟩ := List.mem_filter.mp hp
      obtain ⟨ha, hb⟩ := h.endName_eq.mp hname
      rw [mem_zipIdx_all.mp hmem, ha] at hconn
      refine ⟨hb.symm, isConnected_connectOne.mp ?_⟩
      simpa [isConnected, connectOne, connect] using hconn
    · rintro ⟨hb, ha⟩
      refine ⟨(a, a), List.mem_filter.mpr ⟨mem_zipIdx_all.mpr rfl, ?_⟩, by rw [hb]⟩
      have hconn := isConnected_connectOne.mpr ha
      simpa [isConnected, connectOne, connect] using hconn
  show ((sg.connectOne i).net.enabled (sg.endName a b)) = true ↔ _
  unfold connectOne connect link
  rw [Network.enabled_foldl, Network.enabled_foldl]
  -- first the column is looked at, then the row, then what was there before
  simp only [hrow, hcolumn]
  split <;> rename_i hcol
  · simp only [true_iff]
    tauto
  · split <;> rename_i hr
    · simp [hr]
    · tauto

theorem link_disconnectAll (h : sg.Named) : (sg.disconnectAll i).link a b = true ↔
    a ≠ i ∧ b ≠ i ∧ sg.link a b = true := by
  unfold disconnectAll
  rw [link_disconnect h, and_iff_left (mem_all b), and_iff_left (mem_all a)]

theorem Named.connectOne (h : sg.Named) : (sg.connectOne i).Named := h.connect i (all n)

theorem Named.disconnectAll (h : sg.Named) : (sg.disconnectAll i).Named := h.disconnect i (all n)

/-! ## All servers -/

/-- Connecting servers one after the other only switches on. -/
theorem foldl_connectOne (l : List (Fin n)) (h : sg.Named) :
    (l.foldl ServerGrp.connectOne sg).Named ∧
    (∀ a b, a ∈ l ∨ sg.link a b = true → (l.foldl ServerGrp.connectOne sg).link a b = true) ∧
    ∀ a, a ∈ l ∨ sg.isConnected a = true →
      (l.foldl ServerGrp.connectOne sg).isConnected a = true := by
  induction l generalizing sg with
  | nil => exact ⟨h, by simp, by simp⟩
  | cons i l ih =>
      obtain ⟨hnamed, hlink, hconn⟩ := ih (h.connectOne (i := i))
      refine ⟨hnamed, ?_, ?_⟩
      · intro a b hab
        apply hlink
        rw [link_connectOne h]
        simp only [List.mem_cons] at hab
        tauto
      · intro a ha
        apply hconn
        rw [isConnected_connectOne]
        simp only [List.mem_cons] at ha
        tauto

theorem Named.connectAll (h : sg.Named) : sg.connectAll.Named := (foldl_connectOne _ h).1

theorem exact_connectAll (h : sg.Named) : sg.connectAll.Exact := by
  intro a b _
  obtain ⟨_, hlink, hconn⟩ := foldl_connectOne (all n) h
  have hmem : ∀ a, a ∈ all n := List.mem_finRange
  exact iff_of_true (hlink a b (.inl (hmem a))) ⟨hconn a (.inl (hmem a)), hconn b (.inl (hmem b))⟩

/-! ## Starting servers -/

/-- A row of names that the network did not know, all different. -/
theorem row_injective {net net' : Network} {endNames : Vector EndName n}
    (h : Network.Makes net ((List.finRange n).map fun j => endNames[j]) net') {b b' : Fin n}
    (heq : endNames[b] = endNames[b']) : b = b' :=
  List.inj_on_of_nodup_map h.nodup (List.mem_finRange b) (List.mem_finRange b') heq

theorem endName_startSaved {endNames : Vector EndName n}
    (h : sg.startSaved i endNames = some sg') :
    sg'.endName a b = if a = i then endNames[b] else sg.endName a b := by
  obtain ⟨net, _, rfl⟩ := Option.map_eq_some_iff.mp h
  unfold endName
  rw [getElem_set_fin]
  split <;> rfl

/-- A started server is a row of new ends, all disabled. -/
theorem Named.startSaved {endNames : Vector EndName n} (h : sg.Named)
    (hs : sg.startSaved i endNames = some sg') : sg'.Named ∧
    (∀ a b, sg'.link a b = true ↔ a ≠ i ∧ sg.link a b = true) ∧
    ∀ a, sg'.isConnected a = sg.isConnected a := by
  have hname := @endName_startSaved (h := hs)
  obtain ⟨net, hnet, rfl⟩ := Option.map_eq_some_iff.mp hs
  have hmakes := makes_makeServer hnet
  have hrow : ∀ b : Fin n, endNames[b] ∈ (List.finRange n).map fun j => endNames[j] :=
    fun b ↦ List.mem_map.mpr ⟨b, List.mem_finRange b, rfl⟩
  -- an end of another server was there before, so it is none of the new ones
  have hother : ∀ a b, sg.endName a b ∉ (List.finRange n).map fun j => endNames[j] :=
    fun a b hmem ↦ hmakes.fresh _ hmem (h.mem a b)
  refine ⟨⟨?_, ?_⟩, ?_, fun a ↦ rfl⟩
  · intro a b a' b' heq
    rw [hname, hname] at heq
    split at heq <;> split at heq
    · rename_i ha ha'
      exact ⟨ha.trans ha'.symm, row_injective hmakes heq⟩
    · exact absurd (heq ▸ hrow b) (hother a' b')
    · exact absurd (heq ▸ hrow b') (hother a b)
    · exact h.injective a b a' b' heq
  · intro a b
    rw [hname, show net.ends = _ from hmakes.ends, List.mem_append]
    split
    · exact .inr (hrow b)
    · exact .inl (h.mem a b)
  · intro a b
    unfold link
    rw [hname, show net.enabled _ = _ from hmakes.enabled _]
    split <;> rename_i ha
    · rw [if_pos (hrow b)]
      simp [ha]
    · rw [if_neg (hother a b)]
      simp [ha]

theorem Named.startServer {endNames : Vector EndName n} (h : sg.Named)
    (hs : sg.startServer i endNames = some sg') : sg'.Named ∧
    (∀ a b, sg'.link a b = true ↔ a ≠ i ∧ sg.link a b = true) ∧
    ∀ a, sg'.isConnected a = sg.isConnected a := by
  obtain ⟨mid, hmid, rfl⟩ := Option.map_eq_some_iff.mp hs
  obtain ⟨hnamed, hlink, hconn⟩ := h.startSaved hmid
  exact ⟨hnamed.congr rfl rfl, hlink, hconn⟩

theorem Named.shutdownServer (h : sg.Named) : (sg.shutdownServer i).Named ∧
    (∀ a b, (sg.shutdownServer i).link a b = (sg.disconnectAll i).link a b) ∧
    ∀ a, (sg.shutdownServer i).isConnected a = (sg.disconnectAll i).isConnected a := by
  have hname : (sg.shutdownServer i).endName = (sg.disconnectAll i).endName := by
    funext a b
    unfold ServerGrp.shutdownServer shutdownSaved endName
    split
    · rfl
    · simp only [deleteServer, getElem_fin, Vector.getElem_set]
      split <;> simp_all
  have hnet : (sg.shutdownServer i).net = ((sg.disconnectAll i).deleteServer i).net := by
    unfold ServerGrp.shutdownServer shutdownSaved
    split <;> rfl
  have hconn : (sg.shutdownServer i).connected = (sg.disconnectAll i).connected := by
    unfold ServerGrp.shutdownServer shutdownSaved
    split <;> rfl
  refine ⟨h.disconnectAll.congr hname (by rw [hnet]; rfl), ?_, ?_⟩
  · intro a b
    unfold link
    rw [hnet, hname]
    rfl
  · intro a
    unfold isConnected
    rw [hconn]

theorem named_makeSrvGrp {net : Network} {gid : Int} {names : Vector (Vector EndName n) n}
    (h : makeSrvGrp net gid names = some sg) : sg.Named := by
  obtain ⟨net', hnet, rfl⟩ := Option.map_eq_some_iff.mp h
  have hmakes := Network.makes_foldlM (fun i : Fin n => (List.finRange n).map fun j => names[i][j])
    (fun _ _ _ hrow ↦ makes_makeServer hrow) _ hnet
  have hname : ∀ a b : Fin n, ((names.map fun v => (⟨v, none⟩ : Server n))[a]).endNames[b] =
      names[a][b] := by simp
  -- the names in the order in which they are drawn, as one list over the pairs of servers
  have hpairs : ((List.finRange n).flatMap fun i => (List.finRange n).map fun j => names[i][j]) =
      ((List.finRange n).product (List.finRange n)).map fun p => names[p.1][p.2] := by
    simp only [List.product, List.map_flatMap, List.map_map, Function.comp_def]
  have hpair : ∀ a b : Fin n, (a, b) ∈ (List.finRange n).product (List.finRange n) :=
    fun a b ↦ List.pair_mem_product.mpr ⟨List.mem_finRange a, List.mem_finRange b⟩
  rw [hpairs] at hmakes
  constructor
  · intro a b a' b' heq
    unfold endName at heq
    simp only [hname] at heq
    exact Prod.mk.inj (List.inj_on_of_nodup_map hmakes.nodup (hpair a b) (hpair a' b') heq)
  · intro a b
    unfold endName
    rw [hname, show net'.ends = _ from hmakes.ends]
    exact List.mem_append_right _ (List.mem_map.mpr ⟨(a, b), hpair a b, rfl⟩)

theorem Named.foldlM_startServer {names : Vector (Vector EndName n) n} (l : List (Fin n))
    (h : sg.Named) (hs : l.foldlM (fun (sg : ServerGrp n) i => sg.startServer i names[i]) sg =
      some sg') : sg'.Named := by
  induction l generalizing sg with
  | nil =>
      simp only [List.foldlM_nil, Option.pure_def, Option.some.injEq] at hs
      exact hs ▸ h
  | cons i l ih =>
      simp only [List.foldlM_cons, Option.bind_eq_bind, Option.bind_eq_some_iff] at hs
      obtain ⟨mid, hmid, hrest⟩ := hs
      exact ih (h.startServer hmid).1 hrest

/-! ## Runs -/

end ServerGrp

/-- The calls between which connectivity is looked at. -/
inductive GroupCall (n : Nat) where
  | connectOne (i : Fin n)
  | connectAll
  | disconnectAll (i : Fin n)
  /-- `ShutdownServer(i)`, then `StartServer(i)`. -/
  | restart (i : Fin n) (endNames : Vector EndName n)

namespace ServerGrp

variable {n : Nat} {sg sg' : ServerGrp n} {i : Fin n}

def call (sg : ServerGrp n) : GroupCall n → Option (ServerGrp n)
  | .connectOne i => some (sg.connectOne i)
  | .connectAll => some sg.connectAll
  | .disconnectAll i => some (sg.disconnectAll i)
  | .restart i endNames => (sg.shutdownServer i).startServer i endNames

/-- `ConnectOne` is called for the last server that is not connected. -/
def connectsLast (sg : ServerGrp n) : GroupCall n → Bool
  | .connectOne i => sg.OthersConnected i
  | _ => true

theorem exact_connectOne (h : sg.Named) (hexact : sg.Exact) :
    (sg.connectOne i).Exact ↔ sg.OthersConnected i := by
  constructor
  · intro hex b hb
    -- the end from `i` to `b` is switched on in any case
    have hlink : (sg.connectOne i).link i b = true := (link_connectOne h).mpr (.inl rfl)
    obtain hbi | hconn := isConnected_connectOne.mp ((hex i b (Ne.symm hb)).mp hlink).2
    · exact absurd hbi hb
    · exact hconn
  · intro hothers a b hab
    rw [link_connectOne h, isConnected_connectOne, isConnected_connectOne, hexact a b hab]
    by_cases ha : a = i
    · have hb : b ≠ i := fun hb ↦ hab (ha.trans hb.symm)
      simp [ha, hothers b hb]
    · simp only [ha, hothers a ha, false_or]
      tauto

theorem exact_disconnectAll (h : sg.Named) (hexact : sg.Exact) : (sg.disconnectAll i).Exact := by
  intro a b hab
  rw [link_disconnectAll h, isConnected_disconnectAll, isConnected_disconnectAll, hexact a b hab]
  tauto

theorem exact_restart (h : sg.Named) (hexact : sg.Exact) {endNames : Vector EndName n}
    (hs : (sg.shutdownServer i).startServer i endNames = some sg') : sg'.Exact := by
  obtain ⟨hnamed, hlink, hconn⟩ := h.shutdownServer (i := i)
  obtain ⟨_, hlink', hconn'⟩ := hnamed.startServer hs
  have hoff := exact_disconnectAll (i := i) h hexact
  intro a b hab
  rw [hlink', hconn', hconn', hlink, hconn, hconn, hoff a b hab, isConnected_disconnectAll]
  tauto

theorem Named.call {c : GroupCall n} (h : sg.Named) (hs : sg.call c = some sg') : sg'.Named := by
  cases c with
  | connectOne i => exact Option.some.inj hs ▸ h.connectOne
  | connectAll => exact Option.some.inj hs ▸ h.connectAll
  | disconnectAll i => exact Option.some.inj hs ▸ h.disconnectAll
  | restart i endNames => exact (h.shutdownServer.1.startServer hs).1

theorem exact_call {c : GroupCall n} (h : sg.Named) (hexact : sg.Exact)
    (hlast : sg.connectsLast c = true) (hs : sg.call c = some sg') : sg'.Exact := by
  cases c with
  | connectOne i =>
      have hothers : sg.OthersConnected i := by simpa [connectsLast] using hlast
      exact Option.some.inj hs ▸ (exact_connectOne h hexact).mpr hothers
  | connectAll => exact Option.some.inj hs ▸ exact_connectAll h
  | disconnectAll i => exact Option.some.inj hs ▸ exact_disconnectAll h hexact
  | restart i endNames => exact exact_restart h hexact hs

end ServerGrp

/-- As long as `ConnectOne` is only called for the last server that is not connected, the ends say
what `IsConnected` says; and the next call of `ConnectOne` keeps it so exactly if it is such a
call. -/
theorem connectivity_exact {n : Nat} {net : Network} {gid : Int}
    {names names' : Vector (Vector EndName n) n} {sg₀ sg₁ sg : ServerGrp n}
    (hmake : makeSrvGrp net gid names = some sg₀) (hstart : sg₀.startServers names' = some sg₁)
    (h : Reaches (restrict ServerGrp.call ServerGrp.connectsLast) sg₁ sg) :
    sg.Exact ∧ ∀ i, (sg.connectOne i).Exact ↔ sg.OthersConnected i := by
  have hinit : sg₁.Named ∧ sg₁.Exact := by
    obtain ⟨mid, hmid, rfl⟩ := Option.map_eq_some_iff.mp hstart
    have hnamed := (ServerGrp.named_makeSrvGrp hmake).foldlM_startServer _ hmid
    exact ⟨hnamed.connectAll, ServerGrp.exact_connectAll hnamed⟩
  have hinv : sg.Named ∧ sg.Exact := by
    apply h.invariant hinit
    intro u c v _ hstep hu
    obtain ⟨hlast, hcall⟩ := restrict_eq_some.mp hstep
    exact ⟨hu.1.call hcall, ServerGrp.exact_call hu.1 hu.2 hlast hcall⟩
  exact ⟨hinv.2, fun i ↦ ServerGrp.exact_connectOne hinv.1 hinv.2⟩

/-- A pair has servers `0` and `1`. -/
instance neZeroPair : NeZero 2 := ⟨by decide⟩

/-- Names for the ends of a group of two: one byte for the round, one for the end. -/
def pairNames (round : UInt8) : Vector (Vector EndName 2) 2 :=
  #v[#v[[round, 0], [round, 1]], #v[[round, 2], [round, 3]]]

theorem pair_made : (makeSrvGrp makeNetwork 0 (pairNames 0)).isSome = true := by decide

def madePair : ServerGrp 2 := (makeSrvGrp makeNetwork 0 (pairNames 0)).get pair_made

theorem pair_started : (madePair.startServers (pairNames 1)).isSome = true := by decide

/-- Two servers, started and connected. -/
def startedPair : ServerGrp 2 := (madePair.startServers (pairNames 1)).get pair_started

/-- Server 1 is cut off, restarted and connected again; then server 0 is, with `ConnectAll`. -/
def reconnected : List (GroupCall 2) :=
  [.disconnectAll 1, .restart 1 #v[[2, 0], [2, 1]], .connectOne 1, .disconnectAll 0, .connectAll]

theorem reconnected_runs : (run (restrict ServerGrp.call ServerGrp.connectsLast) startedPair
    reconnected).isSome = true := by decide +kernel

theorem connectivity_exact_reconnected :
    ∃ sg, run (restrict ServerGrp.call ServerGrp.connectsLast) startedPair reconnected = some sg ∧
      sg.isConnected 0 = true ∧ sg.Exact ∧
      ∀ i, (sg.connectOne i).Exact ↔ sg.OthersConnected i :=
  ⟨_, (Option.some_get reconnected_runs).symm, by decide +kernel,
    connectivity_exact (Option.some_get pair_made).symm (Option.some_get pair_started).symm
      (reaches_get reconnected_runs)⟩

/-- Server 1 is disconnected, and `ConnectOne` is called for server 0. -/
def connectedToCutOff : List (GroupCall 2) := [.disconnectAll 1, .connectOne 0]

theorem connectedToCutOff_runs :
    (run ServerGrp.call startedPair connectedToCutOff).isSome = true := by decide +kernel

theorem disconnected_reached :
    ∃ sg, run ServerGrp.call startedPair connectedToCutOff = some sg ∧
      sg.isConnected 1 = false ∧ sg.link 0 1 = true ∧ ¬ sg.Exact :=
  ⟨_, (Option.some_get connectedToCutOff_runs).symm, by decide +kernel, by decide +kernel,
    by decide +kernel⟩

end GoLabs.Tester
