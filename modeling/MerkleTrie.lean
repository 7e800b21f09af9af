import MerkleTrie.Event.History
import MerkleTrie.Proofs.Builder.Caching
import MerkleTrie.Proofs.Builder.Links
import MerkleTrie.Proofs.Builder.Refinement
import MerkleTrie.Proofs.Hash.Origin
import MerkleTrie.Proofs.Hash.Readings
import MerkleTrie.Proofs.Json.Forms
import MerkleTrie.Proofs.Path.CommonPrefix
import MerkleTrie.Proofs.Path.Monoid
import MerkleTrie.Proofs.Proof.Binding
import MerkleTrie.Proofs.Proof.Codec
import MerkleTrie.Proofs.Proof.Flavours
import MerkleTrie.Proofs.Proof.Inclusion
import MerkleTrie.Proofs.Proof.Key
import MerkleTrie.Proofs.Proof.NonInclusion
import MerkleTrie.Proofs.Proof.Sides
import MerkleTrie.Proofs.Root.Counters
import MerkleTrie.Proofs.Root.Route
