import ArcSwap.Properties.Replacements
import ArcSwap.Properties.Cooldown
import ArcSwap.Properties.Kinds
import ArcSwap.Properties.Traversals
import ArcSwap.Properties.Owners
import ArcSwap.Properties.Retries
import ArcSwap.Properties.Settlement
import ArcSwap.Properties.Readers
import ArcSwap.Properties.Register
import ArcSwap.Properties.Conservation
import ArcSwap.Properties.Envelopes
import ArcSwap.Properties.Assertions
import ArcSwap.Properties.Wraparound
import ArcSwap.Users.Freshness
import ArcSwap.Values.Loads
import ArcSwap.Values.Composition
import ArcSwap.Strategies.LockProgress
