import AccountDirectory.Reference

/-! Blindness. Two runs whose requests differ only in what a body carries
beyond its size, its generation, its root, the verifier's verdict and the
retraction test, and in which the same positions repeat a body, are answered
with the same statuses and append at the same positions. -/
namespace AccountDirectory
open Library

variable {Route Signature σ : Type} (P : Platform Route Signature)

structure AlikePut (put put' : SignedDirectoryPut Route Signature) : Prop where
  generation : put.entry.generation = put'.entry.generation
  root : put.root = put'.root
  verifies : P.putVerifies put = P.putVerifies put'
  retraction : P.isRetraction put.entry = P.isRetraction put'.entry

structure AlikeBody (body body' : String) : Prop where
  size : maxPutBytes < body.utf8ByteSize ↔ maxPutBytes < body'.utf8ByteSize
  decoded : Option.Rel (AlikePut P) (P.decodePut body) (P.decodePut body')

inductive Alike : Request → Request → Prop where
  | put {root body body' : String} (h : AlikeBody P body body') :
      Alike (.put root body) (.put root body')
  | get {root : String} : Alike (.get root) (.get root)

def pairBodies : Request × Request → Option (String × String)
  | (.put _ body, .put _ body') => some (body, body')
  | _ => none

/-- The bodies at corresponding positions. -/
def bodyPairs (requests requests' : List Request) : List (String × String) :=
  (requests.zip requests').filterMap pairBodies

/-- Alike position by position, and with bodies repeated at the same positions. -/
structure Blinded (requests requests' : List Request) : Prop where
  alike : List.Forall₂ (Alike P) requests requests'
  pattern : ∀ pair ∈ bodyPairs requests requests', ∀ pair' ∈ bodyPairs requests requests',
    pair.1 = pair'.1 ↔ pair.2 = pair'.2

def Answer.status : Answer → Option StatusCode
  | .response reply => some reply.status
  | _ => none

variable {P} {root body body' : String}

theorem AlikeBody.checkPut (h : AlikeBody P body body') (root : String) :
    (∃ refusal, checkPut P root body = .error refusal ∧ checkPut P root body' = .error refusal) ∨
      ∃ put put', checkPut P root body = .ok put ∧ checkPut P root body' = .ok put' ∧
        AlikePut P put put' := by
  have hdecoded := h.decoded
  unfold AccountDirectory.checkPut
  by_cases hsize : maxPutBytes < body.utf8ByteSize
  · left
    rw [if_pos hsize, if_pos (h.size.mp hsize)]
    exact ⟨_, rfl, rfl⟩
  · rw [if_neg hsize, if_neg (fun hsize' => hsize (h.size.mpr hsize'))]
    generalize P.decodePut body = decoded at hdecoded
    generalize P.decodePut body' = decoded' at hdecoded
    cases hdecoded with
    | none => exact .inl ⟨_, rfl, rfl⟩
    | @some put put' halike =>
        have hroot : put.entry.directory.rootPubkey = put'.entry.directory.rootPubkey := halike.root
        dsimp only
        rw [halike.generation, hroot, halike.verifies]
        split
        · split
          · exact .inr ⟨_, _, rfl, rfl, halike⟩
          · exact .inl ⟨_, rfl, rfl⟩
        · exact .inl ⟨_, rfl, rfl⟩

/-- Bodies at one position, both accepted for the root. -/
structure Twins (P : Platform Route Signature) (pairs : List (String × String))
    (row row' : String) : Prop where
  paired : (row, row') ∈ pairs
  accepted : ∃ root put put', Acceptable P root row put ∧ Acceptable P root row' put' ∧
    AlikePut P put put'

variable {pairs : List (String × String)} {log log' held held' : List String}

theorem Twins.rowRoot {row row' : String} (h : Twins P pairs row row') :
    rowRoot P row = rowRoot P row' := by
  obtain ⟨root, put, put', hput, hput', -⟩ := h.accepted
  rw [hput.rowRoot, hput'.rowRoot]

theorem Twins.rows (h : List.Forall₂ (Twins P pairs) log log') (root : String) :
    List.Forall₂ (Twins P pairs) (rowsFor P log root) (rowsFor P log' root) :=
  history_rel (fun _ _ => Twins.rowRoot) h

/-- The pattern of repetitions carries recognition from one run to the other. -/
theorem Twins.mem_iff
    (hpattern : ∀ pair ∈ pairs, ∀ pair' ∈ pairs, pair.1 = pair'.1 ↔ pair.2 = pair'.2)
    (h : List.Forall₂ (Twins P pairs) held held') (hpair : (body, body') ∈ pairs) :
    body ∈ held ↔ body' ∈ held' := by
  induction h with
  | nil => simp
  | cons hrow _ ih =>
      have hhead := hpattern _ hpair _ hrow.paired
      rw [List.mem_cons, List.mem_cons, ih]
      exact or_congr hhead Iff.rfl

/-- What is fixed over two blinded runs. -/
structure Veiled (P : Platform Route Signature) (pairs : List (String × String)) : Prop where
  pattern : ∀ pair ∈ pairs, ∀ pair' ∈ pairs, pair.1 = pair'.1 ↔ pair.2 = pair'.2
  left : CollisionFree P (pairs.map Prod.fst)
  right : CollisionFree P (pairs.map Prod.snd)

theorem Twins.among (h : List.Forall₂ (Twins P pairs) held held') :
    (∀ row ∈ held, row ∈ pairs.map Prod.fst) ∧ ∀ row ∈ held', row ∈ pairs.map Prod.snd := by
  induction h with
  | nil => simp
  | cons hrow _ ih =>
      refine ⟨fun row hmem => ?_, fun row hmem => ?_⟩
      · rcases List.mem_cons.mp hmem with rfl | hrest
        · exact List.mem_map_of_mem hrow.paired
        · exact ih.1 row hrest
      · rcases List.mem_cons.mp hmem with rfl | hrest
        · exact List.mem_map_of_mem hrow.paired
        · exact ih.2 row hrest

theorem Veiled.verdict (hveiled : Veiled P pairs) (h : List.Forall₂ (Twins P pairs) held held')
    (htwins : Twins P pairs body body') :
    (register P).verdict held body = (register P).verdict held' body' := by
  have hamong := Twins.among h
  obtain ⟨root, put, put', hput, hput', halike⟩ := htwins.accepted
  apply Register.verdict_congr
  · rw [seen_eq_mem hveiled.left hamong.1 (List.mem_map_of_mem htwins.paired),
      seen_eq_mem hveiled.right hamong.2 (List.mem_map_of_mem htwins.paired),
      decide_eq_decide]
    exact Twins.mem_iff hveiled.pattern h htwins.paired
  · change rowGeneration P body = rowGeneration P body'
    rw [hput.rowGeneration, hput'.rowGeneration, halike.generation]
  · exact h.length_eq

/-- A publish is answered alike, and appends on both sides or on neither. -/
theorem Veiled.publish (hveiled : Veiled P pairs) (root : String)
    (h : List.Forall₂ (Twins P pairs) log log')
    (halike : AlikeBody P body body') (hpair : (body, body') ∈ pairs) :
    (publishLog P log root body).1 = (publishLog P log' root body').1 ∧
      List.Forall₂ (Twins P pairs) (publishLog P log root body).2
        (publishLog P log' root body').2 := by
  unfold publishLog validate
  cases hpath : isAccountRoot root with
  | error panic => exact ⟨rfl, h⟩
  | ok shaped =>
      cases shaped with
      | false => exact ⟨rfl, h⟩
      | true =>
          rcases halike.checkPut root with
            ⟨refusal, hcheck, hcheck'⟩ | ⟨put, put', hcheck, hcheck', hput⟩
          · rw [hcheck, hcheck']
            exact ⟨rfl, h⟩
          · have haccept : Acceptable P root body put :=
              validate_eq_ok_iff.mp (by simp [validate, hpath, hcheck])
            have haccept' : Acceptable P root body' put' :=
              validate_eq_ok_iff.mp (by simp [validate, hpath, hcheck'])
            have htwins : Twins P pairs body body' :=
              ⟨hpair, root, put, put', haccept, haccept', hput⟩
            have hverdict := hveiled.verdict (Twins.rows h root) htwins
            rw [hcheck, hcheck']
            by_cases hadvanced : (register P).verdict (rowsFor P log root) body = .advanced
            · have hadvanced' := hverdict.symm.trans hadvanced
              simp only [Register.offer_advanced hadvanced, Register.offer_advanced hadvanced']
              exact ⟨trivial, List.rel_append h (.cons htwins .nil)⟩
            · have hadvanced' : (register P).verdict (rowsFor P log' root) body' ≠ .advanced :=
                fun heq => hadvanced (hverdict.trans heq)
              simp only [Register.offer_unchanged hadvanced, Register.offer_unchanged hadvanced']
              refine ⟨congrArg Except.ok ?_, h⟩
              exact congrArg (fun verdict => (Disposition.ofVerdict verdict).response) hverdict

/-- What two blinded runs serve for one root: nothing on both sides, or the
bodies of one pair. -/
inductive Shown (pairs : List (String × String)) :
    Except Panic Response → Except Panic Response → Prop where
  | nothing {result : Except Panic Response}
      (h : ∀ response, result = .ok response → response.status = .notFound) :
      Shown pairs result result
  | bodies (status : StatusCode) {body body' : String} (h : (body, body') ∈ pairs) :
      Shown pairs (.ok (signedJson status body)) (.ok (signedJson status body'))

theorem Twins.fetch (h : List.Forall₂ (Twins P pairs) log log') (root : String) :
    Shown pairs (fetchLog P log root) (fetchLog P log' root) := by
  have hlast := forall₂_getLast? (Twins.rows h root)
  cases hrow : (rowsFor P log root).getLast? with
  | none =>
      rw [hrow] at hlast
      generalize hrow' : (rowsFor P log' root).getLast? = last' at hlast
      cases hlast
      have hsame : fetchLog P log' root = fetchLog P log root := by simp only [fetchLog, hrow, hrow']
      rw [hsame]
      refine .nothing fun response hresponse => ?_
      unfold fetchLog at hresponse
      rw [hrow] at hresponse
      split at hresponse
      · cases hresponse
      · cases hresponse; rfl
      · cases hresponse; rfl
  | some row =>
      rw [hrow] at hlast
      generalize hrow' : (rowsFor P log' root).getLast? = last' at hlast
      cases hlast with
      | @some _ row' htwins =>
          obtain ⟨other, put, put', hput, hput', halike⟩ := htwins.accepted
          have hkey := (mem_history.mp (List.mem_of_getLast? hrow)).2
          obtain rfl : other = root := Option.some.inj (hput.rowRoot.symm.trans hkey)
          rw [fetchLog_of_last hput hrow, fetchLog_of_last hput' hrow', halike.retraction]
          exact .bodies _ htwins.paired

variable {requests requests' : List Request}

theorem mem_putBodies_of_pair {pair : String × String}
    (h : pair ∈ bodyPairs requests requests') :
    pair.1 ∈ putBodies (requests.map .request) ∧ pair.2 ∈ putBodies (requests'.map .request) := by
  obtain ⟨⟨request, request'⟩, hmem, hpair⟩ := List.mem_filterMap.mp h
  obtain ⟨hleft, hright⟩ := List.of_mem_zip hmem
  cases request with
  | get root => cases hpair
  | put root body =>
      cases request' with
      | get root' => cases hpair
      | put root' body' =>
          cases hpair
          exact ⟨List.mem_filterMap.mpr ⟨_, List.mem_map_of_mem hleft, rfl⟩,
            List.mem_filterMap.mpr ⟨_, List.mem_map_of_mem hright, rfl⟩⟩

theorem Blinded.take (h : Blinded P requests requests') (k : Nat) :
    Blinded P (requests.take k) (requests'.take k) ∧
      ∀ pair ∈ bodyPairs (requests.take k) (requests'.take k), pair ∈ bodyPairs requests requests' := by
  have hsub : ∀ pair ∈ bodyPairs (requests.take k) (requests'.take k),
      pair ∈ bodyPairs requests requests' := by
    intro pair hpair
    obtain ⟨both, hmem, hboth⟩ := List.mem_filterMap.mp hpair
    have hzip : (requests.take k).zip (requests'.take k) = (requests.zip requests').take k :=
      List.take_zipWith.symm
    rw [hzip] at hmem
    exact List.mem_filterMap.mpr ⟨both, List.mem_of_mem_take hmem, hboth⟩
  exact ⟨⟨List.forall₂_take k h.alike,
    fun pair hpair pair' hpair' => h.pattern pair (hsub pair hpair) pair' (hsub pair' hpair')⟩, hsub⟩

/-- Blinded runs of the ledger: equal statuses, and logs of corresponding bodies. -/
theorem Blinded.run (h : Blinded P requests requests')
    (hfree : CollisionFree P (putBodies (requests.map .request)))
    (hfree' : CollisionFree P (putBodies (requests'.map .request))) :
    List.Forall₂ (fun answer answer' => answer.status = answer'.status)
        ((ledger P).outputs [] (requests.map .request))
        ((ledger P).outputs [] (requests'.map .request)) ∧
      List.Forall₂ (Twins P (bodyPairs requests requests'))
        (logAt P (requests.map .request)) (logAt P (requests'.map .request)) := by
  have hveiled : Veiled P (bodyPairs requests requests') := by
    refine ⟨h.pattern, hfree.subset fun body hbody => ?_, hfree'.subset fun body hbody => ?_⟩
    · obtain ⟨pair, hpair, rfl⟩ := List.mem_map.mp hbody
      exact (mem_putBodies_of_pair hpair).1
    · obtain ⟨pair, hpair, rfl⟩ := List.mem_map.mp hbody
      exact (mem_putBodies_of_pair hpair).2
  have hinputs : List.Forall₂ (fun step step' : Step => ∃ request request',
      step = .request request ∧ step' = .request request' ∧ Alike P request request' ∧
        ∀ pair ∈ pairBodies (request, request'), pair ∈ bodyPairs requests requests')
      (requests.map .request) (requests'.map .request) := by
    rw [List.forall₂_map_left_iff, List.forall₂_map_right_iff, List.forall₂_iff_zip]
    refine ⟨h.alike.length_eq, fun {request request'} hmem => ?_⟩
    refine ⟨request, request', rfl, rfl, List.forall₂_zip h.alike hmem, fun pair hpair => ?_⟩
    exact List.mem_filterMap.mpr ⟨_, hmem, hpair⟩
  refine Machine.simulation (M := ledger P) (N := ledger P) (n := 0)
    (R := fun _ => List.Forall₂ (Twins P (bodyPairs requests requests')))
    (P := fun _ _ => True) (F := fun _ _ => True) ?_ hinputs .nil
    (Machine.along_of_forall (fun _ _ => trivial) _ _)
    (Machine.along_of_forall (fun _ _ => trivial) _ _)
  rintro n log log' _ _ hlogs ⟨request, request', rfl, rfl, halike, hpair⟩ - -
  cases halike with
  | @get root =>
      refine ⟨?_, hlogs⟩
      have hshown := Twins.fetch hlogs root
      change (Answer.ofResult (fetchLog P log root)).status =
        (Answer.ofResult (fetchLog P log' root)).status
      generalize fetchLog P log root = result at hshown
      generalize fetchLog P log' root = result' at hshown
      cases hshown <;> rfl
  | @put root body body' hbody =>
      have hpublish := hveiled.publish root hlogs hbody (hpair _ rfl)
      refine ⟨?_, hpublish.2⟩
      change (Answer.ofResult (publishLog P log root body).1).status =
        (Answer.ofResult (publishLog P log' root body').1).status
      rw [hpublish.1]

/-- What a `GET` at position `k` is answered. -/
theorem FreshRun.fetch_at [Store σ] {dir : BlindDirectory Route σ} (h : FreshRun P dir requests)
    {k : Nat} (hget : requests[k]? = some (.get root)) :
    ((service P).outputs dir (requests.map .request))[k]? =
      some (.ofResult (fetchLog P (logAt P ((requests.take k).map .request)) root)) := by
  have hfollows := (h.take k).run.2
  rw [Machine.getElem?_outputs, List.getElem?_map, hget, ← List.map_take, ← hfollows.fetch]
  rfl

/-- Noninterference: what a body carries beyond what `Alike` compares decides no
status and no append, and a served body is the one published at the place the
other run's was. -/
theorem noninterference [Store σ] {dir dir' : BlindDirectory Route σ}
    (hrun : FreshRun P dir requests) (hrun' : FreshRun P dir' requests')
    (hstores : dir.store.isSome = dir'.store.isSome) (h : Blinded P requests requests')
    (hfree : CollisionFree P (putBodies (requests.map .request)))
    (hfree' : CollisionFree P (putBodies (requests'.map .request))) :
    ((service P).outputs dir (requests.map .request)).map Answer.status =
        ((service P).outputs dir' (requests'.map .request)).map Answer.status ∧
      (∀ k, ((service P).after dir ((requests.take k).map .request)).log.length =
        ((service P).after dir' ((requests'.take k).map .request)).log.length) ∧
      ∀ k root shown, requests[k]? = some (.get root) →
        ((service P).outputs dir (requests.map .request))[k]? = some (.response shown) →
        shown.status = .ok ∨ shown.status = .gone →
        ∃ shown', ((service P).outputs dir' (requests'.map .request))[k]? =
            some (.response shown') ∧
          shown'.status = shown.status ∧
          (shown.body, shown'.body) ∈ bodyPairs (requests.take k) (requests'.take k) := by
  have hinitial : ∀ k, List.Forall₂ (Twins P (bodyPairs (requests.take k) (requests'.take k)))
      (logAt P ((requests.take k).map .request)) (logAt P ((requests'.take k).map .request)) := by
    intro k
    have hpairs : ∀ {list : List Request}, ∀ body ∈ putBodies ((list.take k).map .request),
        body ∈ putBodies (list.map .request) := by
      intro list body hbody
      obtain ⟨step, hstep, hcarries⟩ := List.mem_filterMap.mp hbody
      have hmem := List.map_subset _ (List.take_subset k list) hstep
      exact List.mem_filterMap.mpr ⟨step, hmem, hcarries⟩
    exact ((h.take k).1.run (hfree.subset hpairs) (hfree'.subset hpairs)).2
  refine ⟨?_, fun k => ?_, fun k root shown hget hshown hstatus => ?_⟩
  · rw [hrun.run.1, hrun'.run.1]
    have hstatuses : List.Forall₂ Eq
        (((ledger P).outputs [] (requests.map .request)).map Answer.status)
        (((ledger P).outputs [] (requests'.map .request)).map Answer.status) := by
      rw [List.forall₂_map_left_iff, List.forall₂_map_right_iff]
      exact (h.run hfree hfree').1
    exact List.forall₂_eq_eq_eq ▸ hstatuses
  · rw [(hrun.take k).run.2.log_length, (hrun'.take k).run.2.log_length, isSome_store_after,
      isSome_store_after, hstores, (hinitial k).length_eq]
  · have hget' : requests'[k]? = some (.get root) := by
      have hrel := forall₂_getElem? h.alike k
      rw [hget] at hrel
      generalize requests'[k]? = request' at hrel
      cases hrel with
      | some halike => cases halike; rfl
    rw [hrun.fetch_at hget, Option.some.injEq] at hshown
    rw [hrun'.fetch_at hget']
    have hfetch := Twins.fetch (hinitial k) root
    generalize fetchLog P (logAt P ((requests.take k).map .request)) root = result at hfetch hshown
    generalize fetchLog P (logAt P ((requests'.take k).map .request)) root = result' at hfetch
    cases hfetch with
    | bodies status hpair =>
        cases hshown
        exact ⟨_, rfl, rfl, hpair⟩
    | nothing hnone =>
        cases result with
        | error panic => cases hshown
        | ok reply =>
            cases hshown
            rw [hnone _ rfl] at hstatus
            rcases hstatus with hok | hgone
            · cases hok
            · cases hgone

theorem noninterference_of_sample_bodies :
    ((service Sample.platform).outputs (.openOver Sample.platform ScriptedStore.empty)
        ([.put Sample.root "first", .put Sample.root "second", .get Sample.root].map
          .request)).map Answer.status =
      ((service Sample.platform).outputs (.openOver Sample.platform ScriptedStore.empty)
        ([.put Sample.root "uno", .put Sample.root "dos", .get Sample.root].map
          .request)).map Answer.status := by
  have hblinded : Blinded Sample.platform
      [.put Sample.root "first", .put Sample.root "second", .get Sample.root]
      [.put Sample.root "uno", .put Sample.root "dos", .get Sample.root] := {
    alike := .cons (.put ⟨by decide, .some ⟨rfl, rfl, rfl, rfl⟩⟩)
      (.cons (.put ⟨by decide, .some ⟨rfl, rfl, rfl, rfl⟩⟩) (.cons .get .nil))
    pattern := by decide }
  exact (noninterference ⟨.inr ⟨_, rfl, rfl⟩, by decide, by decide +kernel⟩
    ⟨.inr ⟨_, rfl, rfl⟩, by decide, by decide +kernel⟩ rfl hblinded (by decide +kernel)
    (by decide +kernel)).1

end AccountDirectory
