import QudoPqc.Aes.Dispatch
import QudoPqc.Integrity.Embed
import QudoPqc.Interop.KeyPair
import QudoPqc.Interop.SlhDsa
import QudoPqc.Lifecycle.KeyRelease
import QudoPqc.Lifecycle.OnDemand
import QudoPqc.Lifecycle.SelfLock
import QudoPqc.MlDsa.Correctness
import QudoPqc.MlDsa.KeyGeneration
import QudoPqc.MlDsa.KeyWiping
import QudoPqc.MlDsa.Loaders
import QudoPqc.MlDsa.NativeNtt
import QudoPqc.MlDsa.Sampling
import QudoPqc.MlDsa.UpstreamNtt
import QudoPqc.MlKem.Canonical
import QudoPqc.MlKem.Delegation
import QudoPqc.MlKem.KeyWiping
import QudoPqc.Random.Interval
import QudoPqc.Random.Linear
import QudoPqc.SlhDsa.Correctness
import QudoPqc.SlhDsa.Keygen
